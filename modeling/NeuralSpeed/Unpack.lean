import NeuralSpeed.Simd
import Mathlib.Tactic.IntervalCases

/-!
# Unpacking 4-bit codes

A 4-bit buffer packs two codes per byte: element `t` is the low nibble of byte `t / 2` when `t`
is even and its high nibble when `t` is odd (`nibble`). `unpack_4bits_sse` spreads the sixteen
nibbles of eight bytes over sixteen bytes with a byte shuffle, a 32-bit shift, two masks and
three unpacks. `unpack4bitsSse_fullrange` says the result is exactly the sixteen nibbles in
order; the other formats then shift each 32-bit lane of it left by four.

The proof follows the data through the registers: after the shuffle, bytes `0..3` and `8..11`
hold the eight source bytes (`shuffle_raw`); masking keeps the low nibble of each byte
(`and_fifteen_val`) and shifting each 32-bit lane right by four then masking keeps its high
nibble (`srli_and_fifteen_val`); the unpacks interleave the two.
-/

namespace NeuralSpeed

/-- The `BTLA_DTYPE` tags of the 4-bit formats. -/
inductive Bit4Type where
  | s4Clip
  | s4Fullrange
  | f4Bnb
  | f4Nf4
  | f4E2m1
  deriving DecidableEq, Repr

/-- The 4-bit code of element `t` of a packed buffer: the low nibble of byte `t / 2` for even
`t` (`bit4x2::x`), its high nibble for odd `t` (`bit4x2::y`). -/
def nibble (src : Buf Byte) (t : Nat) : Nat :=
  if t % 2 = 0 then (src (t / 2)).val % 16 else (src (t / 2)).val / 16

theorem nibble_lt (src : Buf Byte) (t : Nat) : nibble src t < 16 := by
  have := (src (t / 2)).isLt
  unfold nibble; split <;> omega

/-- `shuffle_map`: bytes `0..3` and `4..7` of the source go to `0..3` and `8..11`; `0xff`
clears the other bytes. -/
def shuffleMap : Buf Byte :=
  fun i => [0, 1, 2, 3, 255, 255, 255, 255, 4, 5, 6, 7, 255, 255, 255, 255].getD i 0

/-- `unpack_4bits_sse<S4_T>(srcptr)`. -/
def unpack4bitsSse (s4 : Bit4Type) (mem : Buf Byte) (p : Nat) : M128i :=
  let shuffleV := mmLoaduSi128 shuffleMap 0
  let rawData := mmLoadlEpi64 mem p
  let xmm0 := mmShuffleEpi8 rawData shuffleV
  let xmm1 := mmSrliEpi32 xmm0 4
  let andHelper := mmSet1Epi8 0x0f
  let xmm0 := mmAndSi128 xmm0 andHelper
  let xmm1 := mmAndSi128 xmm1 andHelper
  let xmm2 := mmUnpackloEpi8 xmm0 xmm1
  let xmm3 := mmUnpackhiEpi8 xmm0 xmm1
  let xmm2 := mmUnpackloEpi64 xmm2 xmm3
  if s4 ≠ .s4Fullrange then mmSlliEpi32 xmm2 4 else xmm2

/-- `convert_s4_s8_16_sse<S4_T>(dstptr, srcptr)`: unpack sixteen codes, recentre the full-range
ones by subtracting 8, store sixteen bytes. -/
def convertS4S8x16Sse (s4 : Bit4Type) (dst : Buf Byte) (q : Nat) (src : Buf Byte) (p : Nat) :
    Buf Byte :=
  let dst0 := unpack4bitsSse s4 src p
  let dst0 := if s4 = .s4Fullrange then mmSubEpi8 dst0 (mmSet1Epi8 8) else dst0
  mmStoreuSi128 dst q dst0

/-- `fp4_pad_4bit(dstptr, srcptr)`: the sixteen raw codes of eight bytes, as LUT indices. -/
def fp4Pad4bit (dst : Buf Byte) (q : Nat) (src : Buf Byte) (p : Nat) : Buf Byte :=
  mmStoreuSi128 dst q (unpack4bitsSse .s4Fullrange src p)

/-- Modelled from the spec: `ref::convert_s4_s8_8<F4_T>` of `kernel_ref.h`, not under src/. For
the 4-bit float formats a code is a lookup index (spec, data model), so the eight codes of four
bytes are stored unchanged, low nibble first. -/
def convertS4S8x8 (dst : Buf Byte) (q : Nat) (src : Buf Byte) (p : Nat) : Buf Byte :=
  dst.store q 8 fun m => byteOf (nibble src (2 * p + m))

/-! ## The unpack, register by register -/

theorem shuffleMap_val {i : Nat} (hi : i < 16) :
    (shuffleMap i).val = if i % 8 < 4 then i - 4 * (i / 8) else 255 := by
  interval_cases i <;> rfl

/-- After the shuffle, bytes `0..3` and `8..11` hold source bytes `0..3` and `4..7`. -/
theorem shuffle_raw (mem : Buf Byte) (p : Nat) {j : Nat} (hj : j < 16) :
    mmShuffleEpi8 (mmLoadlEpi64 mem p) (mmLoaduSi128 shuffleMap 0) j
      = if j % 8 < 4 then mem (p + (j - 4 * (j / 8))) else 0 := by
  have h := shuffleMap_val hj
  simp only [mmShuffleEpi8, mmLoaduSi128, Nat.zero_add, h]
  split_ifs <;> first | rfl | omega | simp only [mmLoadlEpi64]
  rw [if_pos (by omega), Nat.mod_eq_of_lt (by omega)]

theorem and_fifteen_val (a : M128i) (j : Nat) :
    (mmAndSi128 a (mmSet1Epi8 0x0f) j).val = (a j).val % 16 := by
  have := (a j).isLt
  simp only [mmAndSi128, mmSet1Epi8, byteOf_val]
  erw [land_fifteen]; omega

/-- Shifting a 32-bit lane right by four and masking with `0x0f` leaves in each byte the high
nibble of the same byte: the bits shifted in from the next byte land above the mask. -/
theorem srli_and_fifteen_val (a : M128i) (j : Nat) :
    (mmAndSi128 (mmSrliEpi32 a 4) (mmSet1Epi8 0x0f) j).val = (a j).val / 16 := by
  rw [and_fifteen_val, mmSrliEpi32_val]
  obtain ⟨w, r, hr, rfl⟩ : ∃ w r, r < 4 ∧ j = 4 * w + r := ⟨j / 4, j % 4, by omega, by omega⟩
  have h0 := (a (4 * w)).isLt; have h1 := (a (4 * w + 1)).isLt
  have h2 := (a (4 * w + 2)).isLt; have h3 := (a (4 * w + 3)).isLt
  rw [show (4 * w + r) / 4 = w by omega, show (4 * w + r) % 4 = r by omega]
  simp only [lane32]
  interval_cases r <;> simp <;> omega

/-- The full-range unpack returns the sixteen codes of the eight bytes at `p`, in order. -/
theorem unpack4bitsSse_fullrange (mem : Buf Byte) (p : Nat) {i : Nat} (hi : i < 16) :
    (unpack4bitsSse .s4Fullrange mem p i).val = nibble mem (2 * p + i) := by
  simp only [unpack4bitsSse, ne_eq, not_true_eq_false, if_false, mmUnpackloEpi64,
    mmUnpackloEpi8, mmUnpackhiEpi8, nibble]
  rw [show (2 * p + i) % 2 = i % 2 by omega, show (2 * p + i) / 2 = p + i / 2 by omega]
  split_ifs <;>
    first
    | rw [and_fifteen_val, shuffle_raw mem p (by omega), if_pos (by omega)]
    | rw [srli_and_fifteen_val, shuffle_raw mem p (by omega), if_pos (by omega)]
  all_goals congr 3; omega

theorem fp4Pad4bit_apply (dst : Buf Byte) (q : Nat) (src : Buf Byte) (p m : Nat) (hm : m < 16) :
    (fp4Pad4bit dst q src p (q + m)).val = nibble src (2 * p + m) := by
  simp only [fp4Pad4bit, mmStoreuSi128, Buf.store_apply_add _ _ _ _ hm]
  exact unpack4bitsSse_fullrange src p hm

/-- Shifting a 32-bit lane whose four bytes are below 16 left by four shifts each byte alone:
no bit crosses into the next byte. -/
theorem mmSlliEpi32_four_val (a : M128i) {i : Nat} (h : ∀ j, j / 4 = i / 4 → (a j).val < 16) :
    (mmSlliEpi32 a 4 i).val = (a i).val * 16 := by
  obtain ⟨w, r, hr, rfl⟩ : ∃ w r, r < 4 ∧ i = 4 * w + r := ⟨i / 4, i % 4, by omega, by omega⟩
  have h0 := h (4 * w) (by omega); have h1 := h (4 * w + 1) (by omega)
  have h2 := h (4 * w + 2) (by omega); have h3 := h (4 * w + 3) (by omega)
  simp only [mmSlliEpi32, ofLanes32, byteOf_val, lane32,
    show (4 * w + r) / 4 = w by omega, show (4 * w + r) % 4 = r by omega]
  interval_cases r <;> simp <;> omega

/-- The byte the vector body of `convert_s4_s8_16_sse<S4_T>` stores for the 4-bit code `n`:
`n - 8` modulo 256 for `S4_FULLRANGE`, and `n << 4` for the other formats. -/
def s4Byte (s4 : Bit4Type) (n : Nat) : Byte :=
  if s4 = .s4Fullrange then byteOf (n + 256 - 8) else byteOf (n * 16)

/-- `convert_s4_s8_16_sse` stores the bytes of the sixteen codes of the eight bytes at `p`. -/
theorem convertS4S8x16Sse_eq (s4 : Bit4Type) (dst : Buf Byte) (q : Nat) (src : Buf Byte) (p : Nat) :
    convertS4S8x16Sse s4 dst q src p = dst.store q 16 fun m => s4Byte s4 (nibble src (2 * p + m)) := by
  refine Buf.store_congr _ _ _ fun m hm => Fin.ext ?_
  have hfull := unpack4bitsSse_fullrange src p hm
  by_cases hs : s4 = .s4Fullrange
  · subst hs
    simp only [if_true, s4Byte, mmSubEpi8, mmSet1Epi8, byteOf_val, hfull]
    rfl
  · have hsl : unpack4bitsSse s4 src p = mmSlliEpi32 (unpack4bitsSse .s4Fullrange src p) 4 := by
      simp only [unpack4bitsSse, ne_eq, hs, not_false_eq_true, if_true, not_true_eq_false, if_false]
    simp only [hs, if_false, s4Byte, byteOf_val, hsl]
    rw [mmSlliEpi32_four_val _ fun j hj => ?_, hfull, Nat.mod_eq_of_lt (by have := nibble_lt src (2 * p + m); omega)]
    rw [unpack4bitsSse_fullrange src p (by omega)]
    exact nibble_lt _ _

end NeuralSpeed
