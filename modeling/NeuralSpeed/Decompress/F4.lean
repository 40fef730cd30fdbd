import NeuralSpeed.Unpack

/-!
# Decompressing k-blocks of 4-bit floats

`decompress_kblock_f4_fp` turns a `row × _NCOL` tile of FP4/NF4 codes into floats (or bf16) for
`_PACK_ROW = 1` and `_NCOL ∈ {24, 48}`: each code is an index into the format's 16-entry table,
and the entry is multiplied by the scale of the code's k-block and column. The tile may start
inside a k-block (`k_offset`), so `decompress_kblock_bit4_packrow1` runs in three phases: the
rest of the first k-block, the whole k-blocks, and the final partial k-block. Each phase loads
the scales of its k-block once, then unpacks four rows at a time and the remaining rows one by
one (for 24 columns a single row is unpacked as 16 + 8 codes).

`decompressKblockF4Fp_packrow1` proves that the phases together write every row of the tile
exactly once, each with the scales of its own k-block, and nothing outside the tile. The
invariant is `f4Spec k`: after the rows below `k`, the destination holds the final value on
those rows and the old contents elsewhere. Every step (`dequant_row`, `unrollStep_spec`,
`singleStep_spec`) moves `k` forward, and a phase (`segment_spec`, `wholeBlocks_spec`) chains the
steps of one k-block with `forLoop_inv`.

The three FP4 tables are not in the source, so the theorem holds for every table; the destination
conversion `cvt` (the identity for float, `ymm_cvt_fp32_bf16` for bf16) and the multiplication
are arbitrary too, so the result is a statement about where values go, true in any arithmetic.
-/

namespace NeuralSpeed

section F4

variable {F D : Type} [Mul F]

/-- `dequant_f4_N<N, _DST_T, F4_T>`: for each group of eight scratch bytes, gather the table
entries they index, multiply by `vscales[iv]`, convert and store at `dstptr + iv * 8`. -/
def dequantF4N (n : Nat) (lut : Nat → F) (cvt : F → D) (dst : Buf D) (q : Nat) (tmp : Buf Byte)
    (p : Nat) (vscales : Nat → M256 F) : Buf D :=
  forLoop 0 1 (n / 8) (fun iv dst =>
    let idx := mmLoadlEpi64 tmp (p + iv * 8)
    let padIdx := mm256CvtepuEpi32 idx
    let fp32DqV := mm256MulPs (mm256I32gatherPs lut padIdx) (vscales iv)
    mm256StoreuPs dst (q + iv * 8) fun l => cvt (fp32DqV l)) dst

/-- The scratch and destination buffers `decompress_kblock_bit4_packrow1` writes. -/
structure Bit4State (D : Type) where
  dst : Buf D
  tmp : Buf Byte

/-- The read-only arguments of `decompress_kblock_bit4_packrow1` (`srcptr`, `scales`, `k_offset`,
`kblock`, `NPad`, the strides and the two unpack functions and the dequantize function). -/
structure Bit4Args (F D : Type) where
  ncol : Nat
  src : Buf Byte
  ldSrc : Nat
  ldDst : Nat
  scales : Buf F
  kOffset : Nat
  kblock : Nat
  nPad : Nat
  dequantize : Buf D → Nat → Buf Byte → Nat → (Nat → M256 F) → Buf D
  padBit4x16 : Buf Byte → Nat → Buf Byte → Nat → Buf Byte
  padBit4x8 : Buf Byte → Nat → Buf Byte → Nat → Buf Byte

namespace Bit4Args

variable (g : Bit4Args F D)

/-- `vscales[iv] = _mm256_loadu_ps(scales + (k_offset + irow) / kblock * NPad + iv * 8)`. -/
def loadScales (irow : Nat) : Nat → M256 F :=
  fun iv => mm256LoaduPs g.scales ((g.kOffset + irow) / g.kblock * g.nPad + iv * 8)

/-- The sixteen-code unpacks of `Loop16 = _NCOL * 4 / 16` chunks, from byte `irow * ld_src / 2`. -/
def padRows (irow : Nat) (tmp : Buf Byte) : Buf Byte :=
  forLoop 0 1 (g.ncol * 4 / 16)
    (fun it tmp => g.padBit4x16 tmp (it * 16) g.src (irow * g.ldSrc / 2 + 8 * it)) tmp

/-- One unrolled step: unpack the codes of rows `irow..irow+3`, then dequantize each row into
`dst` with stride `ld` (`ld_dst` in the partial blocks, `ld_src` in the whole blocks). -/
def unrollStep (ld : Nat) (vs : Nat → M256 F) (irow : Nat) (s : Bit4State D) : Bit4State D :=
  let tmp := g.padRows irow s.tmp
  let dst := forLoop 0 1 4 (fun iterr dst =>
    g.dequantize dst ((irow + iterr) * ld) tmp (iterr * g.ncol) vs) s.dst
  ⟨dst, tmp⟩

/-- One single row: for 24 columns a sixteen-code and an eight-code unpack, otherwise three
sixteen-code unpacks; then dequantize the row. -/
def singleStep (vs : Nat → M256 F) (irow : Nat) (s : Bit4State D) : Bit4State D :=
  let tmp :=
    if g.ncol = 24 then
      g.padBit4x8 (g.padBit4x16 s.tmp 0 g.src (irow * g.ldSrc / 2)) 16 g.src
        (irow * g.ldSrc / 2 + 8)
    else
      forLoop 0 1 3
        (fun it tmp => g.padBit4x16 tmp (it * 16) g.src (irow * g.ldSrc / 2 + 8 * it)) s.tmp
  ⟨g.dequantize s.dst (irow * g.ldDst) tmp 0 vs, tmp⟩

/-- Rows `a ≤ irow < b` of one partial k-block (the first and the last phase): load the scales of
row `a`, run 4-row steps up to `rowpad4 = padto_le(b - a, 4) + a`, then single rows. The first
phase enters with `irow = 0`, where `rowpad4` is the source's `padto_le(row0, 4)`. -/
def segment (a b : Nat) (s : Bit4State D) : Bit4State D :=
  let vs := g.loadScales a
  let rowpad4 := padtoLe (b - a) 4 + a
  let s := forLoop a 4 (tripCount a rowpad4 4) (g.unrollStep g.ldDst vs) s
  forLoop rowpad4 1 (tripCount rowpad4 b 1) (g.singleStep vs) s

/-- `n` whole k-blocks from row `a`: for each, load its scales and run `kblock / 4` 4-row steps. -/
def wholeBlocks (a n : Nat) (s : Bit4State D) : Bit4State D :=
  forLoop a g.kblock n (fun irow s =>
    let vs := g.loadScales irow
    forLoop 0 4 (tripCount 0 g.kblock 4) (fun irr s => g.unrollStep g.ldSrc vs (irow + irr) s) s) s

/-- `row0`: the rows left in the k-block the tile starts in, at most `row`. -/
def firstRows (row : Nat) : Nat :=
  let row0 := g.kblock - g.kOffset % g.kblock
  let row0 := if row0 = g.kblock then 0 else row0
  if row0 > row then row else row0

/-- The three phases from `row0`: the rest of the first k-block, the `n2` whole k-blocks up to
`row1_blk = padto_le(row1, kblock) + row0`, and the final partial k-block if rows remain. -/
def phases (row row0 : Nat) (s : Bit4State D) : Bit4State D :=
  let row1 := row - row0
  let s := if row0 ≠ 0 then g.segment 0 row0 s else s
  let row1Blk := padtoLe row1 g.kblock + row0
  let n2 := tripCount row0 row1Blk g.kblock
  let s := g.wholeBlocks row0 n2 s
  let irow := row0 + n2 * g.kblock
  if irow < row then g.segment irow row s else s

end Bit4Args

/-- `decompress_kblock_bit4_packrow1<true, _NCOL>`: check the asserted shape (`col`, both strides
equal `_NCOL`, `kblock % 4 == 0`, scratch for four rows; `kblock = 0` would divide by zero), then
run the three phases. The symmetric instance loads no zero points. -/
def decompressKblockBit4Packrow1 (g : Bit4Args F D) (dst : Buf D) (row col : Nat) (tmpbuf : Buf Byte)
    (tmpsize : Nat) : Option (BtlaCode × Buf D) :=
  if col ≠ g.ncol ∨ g.ldSrc ≠ g.ncol ∨ g.ldDst ≠ g.ncol ∨ g.kblock % 4 ≠ 0 ∨
      tmpsize < g.ncol * 4 ∨ g.kblock = 0 then none
  else some (.success, (g.phases row (g.firstRows row) ⟨dst, tmpbuf⟩).dst)

/-- `decompress_kblock_bit4_packrow2`: not implemented for AVX2. -/
def decompressKblockBit4Packrow2 (dst : Buf D) : Option (BtlaCode × Buf D) := some (.notSupport, dst)

/-- `decompress_kblock_f4_fp<_F4_T, _DST_T, _PACK_ROW>`: the 24- and 48-column tiles of
`_PACK_ROW = 1` go to `decompress_kblock_bit4_packrow1` with `dequant_f4_N`, `fp4_pad_4bit` and
`ref::convert_s4_s8_8`; everything else is `NotSupport`. The tables `fp4_bnb_dequant_fp32_LUT`,
`nf4_dequant_fp32_LUT` and `fp4_e2m1_dequant_fp32_LUT` are `luts f4`. -/
def decompressKblockF4Fp (f4 : Bit4Type) (packRow : Nat) (luts : Bit4Type → Nat → F) (cvt : F → D)
    (src : Buf Byte) (dst : Buf D) (row col ldSrc ldDst : Nat) (scales : Buf F)
    (kOffset kblock nPad : Nat) (tmp : Buf Byte) (tmpsize : Nat) : Option (BtlaCode × Buf D) :=
  let args (ncol : Nat) : Bit4Args F D :=
    ⟨ncol, src, ldSrc, ldDst, scales, kOffset, kblock, nPad, dequantF4N ncol (luts f4) cvt,
      fp4Pad4bit, convertS4S8x8⟩
  if packRow = 1 then
    if col = 24 then decompressKblockBit4Packrow1 (args 24) dst row col tmp tmpsize
    else if col = 48 then decompressKblockBit4Packrow1 (args 48) dst row col tmp tmpsize
    else some (.notSupport, dst)
  else if packRow = 2 then decompressKblockBit4Packrow2 dst
  else some (.notSupport, dst)

/-! ## The row steps -/

theorem dequantF4N_eq (n : Nat) (lut : Nat → F) (cvt : F → D) (dst : Buf D) (q : Nat)
    (tmp : Buf Byte) (p : Nat) (vs : Nat → M256 F) :
    dequantF4N n lut cvt dst q tmp p vs
      = dst.store q (n / 8 * 8) fun c => cvt (lut (tmp (p + c)).val * vs (c / 8) (c % 8)) := by
  have h := forLoop_store_chunks dst q 0 8 (n / 8)
    fun c => cvt (lut (tmp (p + c)).val * vs (c / 8) (c % 8))
  simp only [Nat.zero_mul, Nat.add_zero, Nat.zero_add] at h
  rw [← h, dequantF4N]
  congr 1; funext iv b
  apply Buf.store_congr
  intro l hl
  simp only [mm256MulPs_apply, mm256I32gatherPs_apply, mm256CvtepuEpi32, mmLoadlEpi64, if_pos hl]
  rw [show (iv * 8 + l) / 8 = iv by omega, show (iv * 8 + l) % 8 = l by omega, Nat.add_assoc]

theorem fp4Pad4bit_apply_of_lt (dst : Buf Byte) (q : Nat) (src : Buf Byte) (p : Nat) {t : Nat}
    (h : t < q) : fp4Pad4bit dst q src p t = dst t :=
  Buf.store_apply_of_lt _ _ _ _ h

/-- `n` sixteen-code unpacks from byte `base` leave the first `16 n` codes in order. -/
theorem padLoop_apply (src : Buf Byte) (base n : Nat) (tmp : Buf Byte) {q : Nat} (hq : q < 16 * n) :
    (forLoop 0 1 n (fun it tmp => fp4Pad4bit tmp (it * 16) src (base + 8 * it)) tmp q).val
      = nibble src (2 * base + q) := by
  refine forLoop_inv (P := fun k (t : Buf Byte) => ∀ q, q < 16 * k → (t q).val = nibble src (2 * base + q))
    (fun q hq => absurd hq (by omega)) ?_ q hq
  intro k t _ ih q hq
  simp only [Nat.zero_add, Nat.mul_one]
  by_cases hlt : q < k * 16
  · rw [fp4Pad4bit_apply_of_lt _ _ _ _ hlt, ih q (by omega)]
  · obtain ⟨m, rfl⟩ : ∃ m, q = k * 16 + m := ⟨q - k * 16, by omega⟩
    rw [fp4Pad4bit_apply _ _ _ _ _ (by omega)]
    congr 1; omega

namespace Bit4Args

variable (g : Bit4Args F D) (lut : Nat → F) (cvt : F → D) (dst0 : Buf D)

/-- `g` is the argument record `decompress_kblock_f4_fp` builds for a tile of `ncol ∈ {24, 48}`
columns with table `lut` and conversion `cvt`, under the shape `decompress_kblock_bit4_packrow1`
asserts. -/
structure IsF4Tile : Prop where
  dequantize : g.dequantize = dequantF4N g.ncol lut cvt
  pad16 : g.padBit4x16 = fp4Pad4bit
  pad8 : g.padBit4x8 = convertS4S8x8
  ldSrc : g.ldSrc = g.ncol
  ldDst : g.ldDst = g.ncol
  ncol : g.ncol = 24 ∨ g.ncol = 48
  kblock4 : g.kblock % 4 = 0

/-- The destination once the rows below `k` are decompressed: each position `t` of those rows
holds the table entry of its code times the scale of its k-block and column, every other
position its old contents. -/
def f4Spec (k : Nat) : Buf D := fun t =>
  if t < k * g.ncol then
    cvt (lut (nibble g.src t) * g.scales ((g.kOffset + t / g.ncol) / g.kblock * g.nPad + t % g.ncol))
  else dst0 t

theorem f4Spec_zero : g.f4Spec lut cvt dst0 0 = dst0 := by
  funext t; simp [f4Spec]

/-- Writing row `r` with its values extends the invariant by one row. -/
theorem f4Spec_store_row (r : Nat) :
    (g.f4Spec lut cvt dst0 r).store (r * g.ncol) g.ncol (fun c => cvt (lut (nibble g.src (r * g.ncol + c)) *
      g.scales ((g.kOffset + r) / g.kblock * g.nPad + c))) = g.f4Spec lut cvt dst0 (r + 1) := by
  funext t
  simp only [Buf.store_apply, f4Spec, Nat.succ_mul]
  by_cases ht : r * g.ncol ≤ t ∧ t < r * g.ncol + g.ncol
  · obtain ⟨c, rfl⟩ : ∃ c, t = r * g.ncol + c := ⟨t - r * g.ncol, by omega⟩
    obtain ⟨hd, hm⟩ := row_col_div_mod (r := r) (by omega : c < g.ncol)
    rw [if_pos ht, if_pos ht.2, hd, hm, Nat.add_sub_cancel_left]
  · rw [if_neg ht]
    split_ifs <;> first | rfl | omega

variable {g lut cvt dst0}

theorem IsF4Tile.ncol_mod_eight (hg : g.IsF4Tile lut cvt) : g.ncol % 8 = 0 := by
  rcases hg.ncol with h | h <;> rw [h]

/-- Dequantizing row `r` from scratch bytes that hold its codes, with the scales of a row of the
same k-block, extends the invariant by one row. -/
theorem dequant_row (hg : g.IsF4Tile lut cvt) {r a o : Nat} (tmp : Buf Byte)
    (htmp : ∀ c, c < g.ncol → (tmp (o + c)).val = nibble g.src (r * g.ncol + c))
    (hblk : (g.kOffset + r) / g.kblock = (g.kOffset + a) / g.kblock) :
    g.dequantize (g.f4Spec lut cvt dst0 r) (r * g.ncol) tmp o (g.loadScales a)
      = g.f4Spec lut cvt dst0 (r + 1) := by
  rw [hg.dequantize, dequantF4N_eq, Nat.div_mul_cancel (Nat.dvd_of_mod_eq_zero hg.ncol_mod_eight),
    ← f4Spec_store_row]
  apply Buf.store_congr
  intro c hc
  simp only [loadScales, mm256LoaduPs_apply, htmp c hc, hblk]
  rw [Nat.add_assoc, Nat.div_add_mod']

/-- A 4-row step over rows of one k-block extends the invariant by four rows. -/
theorem unrollStep_spec (hg : g.IsF4Tile lut cvt) {ld a r : Nat} (hld : ld = g.ncol) (s : Bit4State D)
    (hs : s.dst = g.f4Spec lut cvt dst0 r)
    (hblk : ∀ i, i < 4 → (g.kOffset + (r + i)) / g.kblock = (g.kOffset + a) / g.kblock) :
    (g.unrollStep ld (g.loadScales a) r s).dst = g.f4Spec lut cvt dst0 (r + 4) := by
  have htmp : ∀ q, q < 4 * g.ncol → (g.padRows r s.tmp q).val = nibble g.src (r * g.ncol + q) := by
    intro q hq
    rw [padRows, hg.pad16, hg.ldSrc, padLoop_apply _ _ _ _ (by rcases hg.ncol with h | h <;> omega)]
    congr 1
    rcases hg.ncol with h | h <;> rw [h] <;> omega
  refine forLoop_progress (f := id) (p := fun k => g.f4Spec lut cvt dst0 (r + k)) hs ?_
  intro k d hk hd
  simp only [id, Nat.zero_add, Nat.mul_one, hld] at hd ⊢
  rw [hd, ← Nat.add_assoc]
  refine dequant_row hg _ (fun c hc => ?_) (hblk k hk)
  have hlt : (k + 1) * g.ncol ≤ 4 * g.ncol := Nat.mul_le_mul_right _ (by omega)
  rw [htmp _ (by rw [Nat.succ_mul] at hlt; omega), Nat.add_mul, Nat.add_assoc]

/-- A single row extends the invariant by one row. -/
theorem singleStep_spec (hg : g.IsF4Tile lut cvt) {a r : Nat} (s : Bit4State D)
    (hs : s.dst = g.f4Spec lut cvt dst0 r)
    (hblk : (g.kOffset + r) / g.kblock = (g.kOffset + a) / g.kblock) :
    (g.singleStep (g.loadScales a) r s).dst = g.f4Spec lut cvt dst0 (r + 1) := by
  simp only [singleStep, hg.ldDst, hs]
  refine dequant_row hg _ (fun c hc => ?_) hblk
  rw [Nat.zero_add, hg.pad16, hg.ldSrc]
  rcases hg.ncol with h | h <;> rw [h] at hc ⊢
  · rw [if_pos rfl, hg.pad8]
    by_cases hc16 : c < 16
    · have := fp4Pad4bit_apply s.tmp 0 g.src (r * 24 / 2) c hc16
      rw [Nat.zero_add] at this
      rw [convertS4S8x8, Buf.store_apply_of_lt _ _ _ _ hc16, this]
      congr 1; omega
    · obtain ⟨m, rfl⟩ : ∃ m, c = 16 + m := ⟨c - 16, by omega⟩
      rw [convertS4S8x8, Buf.store_apply_add _ _ _ _ (by omega), byteOf_val,
        Nat.mod_eq_of_lt (by have := nibble_lt g.src (2 * (r * 24 / 2 + 8) + m); omega)]
      congr 1; omega
  · rw [if_neg (by norm_num), padLoop_apply _ _ _ _ (by omega)]
    congr 1; omega

/-- A partial k-block `[a, b)` extends the invariant from `a` to `b`. -/
theorem segment_spec (hg : g.IsF4Tile lut cvt) {a b : Nat} (hab : a ≤ b) (s : Bit4State D)
    (hs : s.dst = g.f4Spec lut cvt dst0 a)
    (hblk : ∀ r, a ≤ r → r < b → (g.kOffset + r) / g.kblock = (g.kOffset + a) / g.kblock) :
    (g.segment a b s).dst = g.f4Spec lut cvt dst0 b := by
  have hpad : padtoLe (b - a) 4 + a = a + (b - a) / 4 * 4 := by rw [padtoLe]; omega
  have h1 : (forLoop a 4 (tripCount a (padtoLe (b - a) 4 + a) 4)
      (g.unrollStep g.ldDst (g.loadScales a)) s).dst = g.f4Spec lut cvt dst0 (a + (b - a) / 4 * 4) := by
    rw [hpad, tripCount_mul _ _ _ (by norm_num)]
    refine forLoop_progress (f := Bit4State.dst) (p := g.f4Spec lut cvt dst0) hs ?_
    intro k y hk hy
    exact unrollStep_spec hg hg.ldDst y hy fun i hi => hblk _ (by omega) (by omega)
  simp only [segment, tripCount_one]
  have h2 := forLoop_progress (f := Bit4State.dst) (p := g.f4Spec lut cvt dst0)
    (a := padtoLe (b - a) 4 + a) (s := 1) (n := b - (padtoLe (b - a) 4 + a))
    (b := g.singleStep (g.loadScales a)) (by rw [h1, hpad])
    fun k y hk hy => singleStep_spec hg y hy (hblk _ (by omega) (by omega))
  rwa [Nat.mul_one, Nat.add_sub_cancel' (by omega)] at h2

/-- Whole k-blocks from a k-block boundary `a` extend the invariant block by block. -/
theorem wholeBlocks_spec (hg : g.IsF4Tile lut cvt) {a n : Nat} (s : Bit4State D)
    (hs : s.dst = g.f4Spec lut cvt dst0 a) (ha : (g.kOffset + a) % g.kblock = 0) :
    (g.wholeBlocks a n s).dst = g.f4Spec lut cvt dst0 (a + n * g.kblock) := by
  refine forLoop_progress (f := Bit4State.dst) (p := g.f4Spec lut cvt dst0) hs ?_
  intro k y _ hy
  dsimp only
  set irow := a + k * g.kblock
  have hk : (g.kOffset + irow) % g.kblock = 0 := by
    rw [← Nat.add_assoc, Nat.add_mul_mod_self_right, ha]
  have hn : tripCount 0 g.kblock 4 = g.kblock / 4 := by
    conv_lhs => rw [show g.kblock = 0 + g.kblock / 4 * 4 by have := hg.kblock4; omega]
    exact tripCount_mul _ _ _ (by norm_num)
  have h := forLoop_progress (f := Bit4State.dst) (p := fun j => g.f4Spec lut cvt dst0 (irow + j))
    (a := 0) (s := 4) (n := g.kblock / 4)
    (b := fun irr s => g.unrollStep g.ldSrc (g.loadScales irow) (irow + irr) s) (x := y)
    (by simpa using hy) fun j z hj hz => by
      simp only [Nat.zero_add] at hz ⊢
      have hblk : ∀ i, i < 4 →
          (g.kOffset + (irow + j * 4 + i)) / g.kblock = (g.kOffset + irow) / g.kblock := by
        intro i hi
        rw [Nat.add_assoc irow, ← Nat.add_assoc, div_eq_of_mod_add_lt (by rw [hk]; omega)]
      rw [unrollStep_spec hg hg.ldSrc z hz hblk, Nat.add_assoc]
  rw [hn, h, Nat.zero_add, Nat.div_mul_cancel (Nat.dvd_of_mod_eq_zero hg.kblock4)]

omit [Mul F] in
theorem firstRows_le (row : Nat) : g.firstRows row ≤ row := by
  simp only [firstRows]; split_ifs <;> omega

omit [Mul F] in
/-- The first phase stays inside the k-block the tile starts in. -/
theorem mod_add_firstRows_le (hk : 0 < g.kblock) (row : Nat) :
    g.kOffset % g.kblock + g.firstRows row ≤ g.kblock := by
  have := Nat.mod_lt g.kOffset hk
  simp only [firstRows]; split_ifs <;> omega

omit [Mul F] in
/-- When rows remain after the first phase, it ends on a k-block boundary. -/
theorem firstRows_boundary (hk : 0 < g.kblock) {row : Nat} (h : g.firstRows row < row) :
    (g.kOffset + g.firstRows row) % g.kblock = 0 := by
  have hlt := Nat.mod_lt g.kOffset hk
  have hdm := Nat.mod_add_div g.kOffset g.kblock
  simp only [firstRows] at h ⊢
  split_ifs at h ⊢ with h1 h2 h3 <;> try omega
  · rw [Nat.add_zero]; omega
  · rw [show g.kOffset + (g.kblock - g.kOffset % g.kblock)
        = g.kblock * (g.kOffset / g.kblock + 1) by rw [Nat.mul_succ]; omega, Nat.mul_mod_right]

/-- The three phases take the invariant from row `0` to row `row`. -/
theorem phases_spec (hg : g.IsF4Tile lut cvt) (hk : 0 < g.kblock) (row : Nat) (s : Bit4State D)
    (hs : s.dst = dst0) :
    (g.phases row (g.firstRows row) s).dst = g.f4Spec lut cvt dst0 row := by
  have h0 := g.firstRows_le row
  have hblk0 := g.mod_add_firstRows_le hk row
  have hb0 : g.firstRows row < row → (g.kOffset + g.firstRows row) % g.kblock = 0 :=
    g.firstRows_boundary hk
  generalize g.firstRows row = row0 at h0 hblk0 hb0 ⊢
  have hml := Nat.mod_lt (row - row0) hk
  have hP := Nat.div_mul_le_self (row - row0) g.kblock
  have hlast : row - (row0 + (row - row0) / g.kblock * g.kblock) = (row - row0) % g.kblock := by
    rw [Nat.mod_def, Nat.sub_sub, Nat.mul_comm]
  have hn2 : tripCount row0 (padtoLe (row - row0) g.kblock + row0) g.kblock
      = (row - row0) / g.kblock := by
    rw [padtoLe, Nat.add_comm]; exact tripCount_mul _ _ _ hk
  -- phase 1: the rest of the first k-block
  have hs1 : (if row0 ≠ 0 then g.segment 0 row0 s else s).dst = g.f4Spec lut cvt dst0 row0 := by
    split_ifs with h
    · refine segment_spec hg (Nat.zero_le _) s (by rw [hs, f4Spec_zero]) fun r _ hr => ?_
      rw [Nat.add_zero, div_eq_of_mod_add_lt (by omega)]
    · rw [not_not.mp h, f4Spec_zero, hs]
  -- phase 2: the whole k-blocks
  have hs2 : (g.wholeBlocks row0 ((row - row0) / g.kblock)
      (if row0 ≠ 0 then g.segment 0 row0 s else s)).dst
      = g.f4Spec lut cvt dst0 (row0 + (row - row0) / g.kblock * g.kblock) := by
    by_cases hr : row0 < row
    · exact wholeBlocks_spec hg _ hs1 (hb0 hr)
    · rw [Nat.sub_eq_zero_of_le (by omega), Nat.zero_div]
      simpa [wholeBlocks] using hs1
  -- phase 3: the final partial k-block
  simp only [phases, hn2]
  by_cases h3 : row0 + (row - row0) / g.kblock * g.kblock < row
  · rw [if_pos h3]
    refine segment_spec hg (by omega) _ hs2 fun r hr1 hr2 => ?_
    have hb : (g.kOffset + (row0 + (row - row0) / g.kblock * g.kblock)) % g.kblock = 0 := by
      rw [← Nat.add_assoc, Nat.add_mul_mod_self_right, hb0 (by omega)]
    obtain ⟨d, rfl⟩ : ∃ d, r = row0 + (row - row0) / g.kblock * g.kblock + d :=
      ⟨_, (Nat.add_sub_cancel' hr1).symm⟩
    have hd : d < g.kblock := by omega
    rw [← Nat.add_assoc, div_eq_of_mod_add_lt (by rw [hb, Nat.zero_add]; exact hd)]
  · rw [if_neg h3, hs2, show row0 + (row - row0) / g.kblock * g.kblock = row by omega]

/-- `decompress_kblock_bit4_packrow1` on an F4 tile returns `Success` with the invariant at the
last row. -/
theorem decompressKblockBit4Packrow1_spec (hg : g.IsF4Tile lut cvt) (hk : 0 < g.kblock) (row : Nat)
    (tmp : Buf Byte) {tmpsize : Nat} (htmp : g.ncol * 4 ≤ tmpsize) :
    decompressKblockBit4Packrow1 g dst0 row g.ncol tmp tmpsize
      = some (.success, g.f4Spec lut cvt dst0 row) := by
  have h1 := hg.ldSrc
  have h2 := hg.ldDst
  have h3 := hg.kblock4
  rw [decompressKblockBit4Packrow1, if_neg (by omega), phases_spec hg hk row _ rfl]

end Bit4Args

/-- `decompress_kblock_f4_fp` with `_PACK_ROW = 1` on a 24- or 48-column tile, for every table,
conversion, `row`, `k_offset` and `kblock > 0` with `kblock % 4 = 0`, both strides equal to the
width and scratch for four rows: it returns `Success`, position `r * col + c` of the tile holds
the table entry of code `r * col + c` times the scale of row `r`'s k-block at column `c`, and no
other position changes. -/
theorem decompressKblockF4Fp_packrow1 (f4 : Bit4Type) (luts : Bit4Type → Nat → F) (cvt : F → D)
    (src : Buf Byte) (dst : Buf D) (row col : Nat) (scales : Buf F) (kOffset kblock nPad : Nat)
    (tmp : Buf Byte) (tmpsize : Nat) (hcol : col = 24 ∨ col = 48) (hk : 0 < kblock)
    (hk4 : kblock % 4 = 0) (htmp : col * 4 ≤ tmpsize) :
    ∃ dst', decompressKblockF4Fp f4 1 luts cvt src dst row col col col scales kOffset kblock nPad
        tmp tmpsize = some (.success, dst') ∧
      (∀ r c, r < row → c < col → dst' (r * col + c) =
        cvt (luts f4 (nibble src (r * col + c)) * scales ((kOffset + r) / kblock * nPad + c))) ∧
      ∀ t, row * col ≤ t → dst' t = dst t := by
  let g : Bit4Args F D := ⟨col, src, col, col, scales, kOffset, kblock, nPad,
    dequantF4N col (luts f4) cvt, fp4Pad4bit, convertS4S8x8⟩
  have hg : g.IsF4Tile (luts f4) cvt := ⟨rfl, rfl, rfl, rfl, rfl, hcol, hk4⟩
  refine ⟨g.f4Spec (luts f4) cvt dst row, ?_, fun r c hr hc => ?_, fun t ht => ?_⟩
  · have h : decompressKblockBit4Packrow1 g dst row g.ncol tmp tmpsize
        = some (.success, g.f4Spec (luts f4) cvt dst row) :=
      Bit4Args.decompressKblockBit4Packrow1_spec hg hk row tmp htmp
    rcases hcol with rfl | rfl <;> simpa [decompressKblockF4Fp] using h
  · obtain ⟨hd, hm⟩ := row_col_div_mod (r := r) hc
    have hrow : (r + 1) * col ≤ row * col := Nat.mul_le_mul_right _ hr
    rw [Nat.succ_mul] at hrow
    simp only [Bit4Args.f4Spec, hd, hm, if_pos (show r * col + c < row * col by omega)]
  · simp only [Bit4Args.f4Spec, if_neg (show ¬ t < row * col by omega)]

/-- A 3-row NF4 tile of 24 columns that starts two rows into a 4-row k-block, with codes from the
bytes `17 * t + 0x21`, the table `n ↦ n - 7`, scales `t + 2` and a destination holding 5. Row 0's
element 5 is code 4 times `scales[5]`, `-3 * 7`; row 1's last element, in the 8-column half of
the 16 + 8 split, is code 10 times `scales[23]`, `3 * 25`; row 2 lies in the next k-block, so its
element 5, code 13, takes `scales[24 + 5]`, `6 * 31`; the element past the tile keeps its 5. -/
theorem decompressKblockF4Fp_packrow1_nf4 :
    ∃ dst', decompressKblockF4Fp .f4Nf4 1 (fun _ n => (n : ℚ) - 7) id (fun t => byteOf (17 * t + 0x21))
        (fun _ => 5) 3 24 24 24 (fun t => (t : ℚ) + 2) 2 4 24 (fun _ => 0) 96 = some (.success, dst') ∧
      dst' 5 = -21 ∧ dst' (24 + 23) = 75 ∧ dst' (2 * 24 + 5) = 186 ∧ dst' (3 * 24) = 5 := by
  obtain ⟨dst', h, hw, hout⟩ := decompressKblockF4Fp_packrow1 .f4Nf4 (fun _ n => (n : ℚ) - 7) id
    (fun t => byteOf (17 * t + 0x21)) (fun _ => 5) 3 24 (fun t => (t : ℚ) + 2) 2 4 24 (fun _ => 0) 96
    (Or.inl rfl) (by decide) (by decide) (by decide)
  have h5 := hw 0 5 (by decide) (by decide)
  have h47 := hw 1 23 (by decide) (by decide)
  have h53 := hw 2 5 (by decide) (by decide)
  norm_num [nibble] at h5 h47 h53
  exact ⟨dst', h, h5, h47, h53, hout _ le_rfl⟩

end F4

end NeuralSpeed
