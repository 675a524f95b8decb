/-
  Svod.Runtime.RelocationsSound

  A relocation is refused or patches its fields exactly when the architecture
  checks the range or every field represents its value.

  An instruction that is patched under a mask keeps the rest of its word and
  holds the bits of its field; these read back as the value when the field
  represents it.  Each relocation type is then a choice of the field.
-/

import Svod.Runtime.JitLoaderSound
import Svod.Runtime.RelocationsSpec

namespace Svod.Runtime.JitLoader

open Svod.Lib

variable {v : ℤ} {rType : RelocationType}

/-! ## Values and their bits -/

/-- `v` as an unsigned number of 64 bits. -/
def asU64 (v : ℤ) : ℕ := (wrapUnsigned 64 v).toNat

theorem cast_asU64 (v : ℤ) : (asU64 v : ℤ) = v % 2 ^ 64 :=
  Int.toNat_of_nonneg (wrapUnsigned_nonneg 64 v)

/-- The number of 64 bits agrees with the value in the bits of a field. -/
theorem asU64_congr {f : Field} (hlo : f.lo ≤ f.top) (htop : f.top ≤ 64) {x v : ℤ}
    (hq : (2 : ℤ) ^ f.top ∣ x / 2 ^ f.lo * 2 ^ f.lo - v / 2 ^ f.lo * 2 ^ f.lo) :
    (2 : ℤ) ^ f.top ∣ (asU64 x / 2 ^ f.lo * 2 ^ f.lo : ℕ) - v / 2 ^ f.lo * 2 ^ f.lo := by
  obtain ⟨d, hd⟩ := Nat.exists_eq_add_of_le hlo
  obtain ⟨e, he⟩ := Nat.exists_eq_add_of_le htop
  have hpow : (2 : ℤ) ^ 64 = 2 ^ f.lo * (2 ^ d * 2 ^ e) := by
    rw [← mul_assoc, ← pow_add, ← hd, ← pow_add, ← he]
  have hdiv : (asU64 x : ℤ) / 2 ^ f.lo = x / 2 ^ f.lo - 2 ^ d * (2 ^ e * (x / 2 ^ 64)) := by
    rw [cast_asU64, Int.emod_def, hpow, mul_assoc, Int.sub_mul_ediv_left _ _ (by positivity),
      mul_assoc]
  have hx : (2 : ℤ) ^ f.top ∣ (asU64 x / 2 ^ f.lo * 2 ^ f.lo : ℕ) - x / 2 ^ f.lo * 2 ^ f.lo := by
    generalize x / 2 ^ 64 = q at hdiv
    refine ⟨-(2 ^ e * q), ?_⟩
    push_cast
    rw [hdiv, hd, pow_add]
    ring
  have h := dvd_add hx hq
  rwa [sub_add_sub_cancel] at h

/-! ## Words -/

theorem wordAt_overlay (image : ℕ → UInt8) (off : ℕ) (bytes : List UInt8) :
    wordAt (overlay image off bytes) off bytes.length = leValue bytes := by
  unfold wordAt
  rw [slice_overlay]

theorem wordAt_lt (image : ℕ → UInt8) (off n : ℕ) : wordAt image off n < 2 ^ (8 * n) := by
  have h := leValue_lt (slice image off n)
  rw [slice_length] at h
  rwa [pow_mul]

/-- A mapping that differs from another one in one word only. -/
structure WordPut (m m' : ByteBuffer) (off n w : ℕ) : Prop where
  len : m'.len = m.len
  outside : ∀ i, i < off ∨ off + n ≤ i → m'.get i = m.get i
  word : wordAt m'.get off n = w

/-- Bytes written to the mapping. -/
theorem write_wordPut {m : ByteBuffer} (off : ℕ) (bytes : List UInt8)
    (h : off + bytes.length ≤ m.len) :
    ∃ m', orPanic (m.write off bytes) = .ok m' ∧ WordPut m m' off bytes.length (leValue bytes) := by
  refine ⟨⟨m.len, overlay m.get off bytes⟩, ?_, rfl, fun i hi => ?_, ?_⟩
  · rw [ByteBuffer.write_of_le h, orPanic_ok]
  · exact overlay_of_disjoint hi
  · exact wordAt_overlay _ _ _

/-- An instruction patched with the bits of a field. -/
theorem patchInsn_wordPut {m : ByteBuffer} {off bits : ℕ} (mask : ℕ) (h : off + 4 ≤ m.len)
    (hbits : bits < 2 ^ 32) :
    ∃ m', patchInsn m off mask bits = .ok m' ∧
      WordPut m m' off 4 ((wordAt m.get off 4 &&& mask) ||| bits) := by
  obtain ⟨m', hm', hput⟩ := write_wordPut (m := m) off (insnBytes m.get off mask bits)
    (by simpa [insnBytes] using h)
  refine ⟨m', by rw [patchInsn_eq h, hm'], ?_⟩
  have hword : leValue (insnBytes m.get off mask bits) =
      (wordAt m.get off 4 &&& mask) ||| bits := by
    rw [insnBytes, leValue_leBytes]
    refine Nat.mod_eq_of_lt (Nat.or_lt_two_pow (n := 32) ?_ hbits)
    exact Nat.and_le_left.trans_lt (wordAt_lt m.get off 4)
  rw [hword] at hput
  simpa [insnBytes] using hput

variable {fmt : Format}

/-- A word with the bits of a field put under a mask holds a value that agrees with these bits
    exactly when the field represents it. -/
theorem WordPut.written_iff {m m' : ByteBuffer} {off mask : ℕ} {x v : ℤ}
    (hput : WordPut m m' off fmt.size
      ((wordAt m.get off fmt.size &&& mask) ||| fmt.field.encode (asU64 x)))
    (hmask : fmt.field.Clears mask (8 * fmt.size)) (htop : fmt.field.top ≤ 64)
    (hq : (2 : ℤ) ^ fmt.field.top ∣
      x / 2 ^ fmt.field.lo * 2 ^ fmt.field.lo - v / 2 ^ fmt.field.lo * 2 ^ fmt.field.lo) :
    (⟨0, fmt, v⟩ : Slot).Written m.get m'.get off ↔ fmt.field.Represents fmt.reading v := by
  have hcover : ∀ i, fmt.field.Covers i → i < 8 * fmt.size := by
    rintro i ⟨p, hp, -, hi⟩
    exact hi.trans_le (fmt.inWord p hp)
  have hreads : fmt.reading.Reads fmt.field.top
      (fmt.field.decode (wordAt m'.get off fmt.size)) v ↔ fmt.field.Represents fmt.reading v := by
    rw [hput.word, Field.decode_encode hmask hcover]
    exact fmt.field.reads_iff fmt.nonempty.le (Nat.zero_lt_of_lt fmt.nonempty) fmt.reading
      (asU64_congr fmt.nonempty.le htop hq)
  constructor
  · exact fun h => hreads.mp h.reads
  · refine fun h => ⟨fun i hi hout => ?_, hreads.mpr h⟩
    simp only [Nat.add_zero]
    rw [hput.word, Field.testBit_outside hmask hi hout]

theorem wordAt_congr {image image' : ℕ → UInt8} {off n : ℕ}
    (h : ∀ i, off ≤ i → i < off + n → image' i = image i) :
    wordAt image' off n = wordAt image off n := by
  unfold wordAt
  rw [slice_congr h]

/-- Whether a word is written depends on its bytes before and after. -/
theorem Slot.written_congr {a b off off' : ℕ} {image image' other other' : ℕ → UInt8}
    (h : wordAt image (off + a) fmt.size = wordAt other (off' + b) fmt.size)
    (h' : wordAt image' (off + a) fmt.size = wordAt other' (off' + b) fmt.size) :
    (⟨a, fmt, v⟩ : Slot).Written image image' off ↔
      (⟨b, fmt, v⟩ : Slot).Written other other' off' := by
  constructor
  · rintro ⟨hout, hreads⟩
    simp only [h, h'] at hout hreads
    exact ⟨hout, hreads⟩
  · rintro ⟨hout, hreads⟩
    simp only [← h, ← h'] at hout hreads
    exact ⟨hout, hreads⟩

/-- One word is patched exactly when it is written. -/
theorem WordPut.patched_iff {m m' : ByteBuffer} {off w : ℕ} (hput : WordPut m m' off fmt.size w) :
    Patched [⟨0, fmt, v⟩] m m' off ↔ (⟨0, fmt, v⟩ : Slot).Written m.get m'.get off := by
  constructor
  · exact fun h => h.written _ (List.mem_singleton.mpr rfl)
  · refine fun h => ⟨hput.len, fun i hi => hput.outside i ?_, ?_⟩
    · exact hi _ (List.mem_singleton.mpr rfl)
    · rintro s hs
      rwa [List.mem_singleton.mp hs]

/-- An instruction patched with the bits that its field has of `x`, where a value agrees with `x`. -/
theorem patchInsn_written {m : ByteBuffer} {off bits : ℕ} (fmt : Format) (mask : ℕ) {x v : ℤ}
    (h : off + 4 ≤ m.len) (hsize : fmt.size = 4) (hmask : fmt.field.Clears mask 32)
    (htop : fmt.field.top ≤ 64) (hbits : bits = fmt.field.encode (asU64 x))
    (hq : (2 : ℤ) ^ fmt.field.top ∣
      x / 2 ^ fmt.field.lo * 2 ^ fmt.field.lo - v / 2 ^ fmt.field.lo * 2 ^ fmt.field.lo) :
    ∃ m', patchInsn m off mask bits = .ok m' ∧
      WordPut m m' off fmt.size ((wordAt m.get off fmt.size &&& mask) ||| bits) ∧
      ((⟨0, fmt, v⟩ : Slot).Written m.get m'.get off ↔ fmt.field.Represents fmt.reading v) := by
  have hcover : ∀ i, fmt.field.Covers i → i < 32 := by
    rintro i ⟨p, hp, -, hi⟩
    have hin := fmt.inWord p hp
    omega
  obtain ⟨m', hm', hput⟩ := patchInsn_wordPut mask h
    (hbits ▸ Field.encode_lt hcover (asU64 x))
  rw [← hsize] at hput
  rw [← show 8 * fmt.size = 32 by omega] at hmask
  refine ⟨m', hm', hput, ?_⟩
  rw [hbits] at hput
  exact hput.written_iff hmask htop hq

theorem leValue_toLeBytes {n : ℕ} (hn : n ≤ 8) (v : ℤ) :
    leValue (toLeBytes n v) = asU64 v % 2 ^ (8 * n) := by
  have hdvd : (2 : ℤ) ^ (8 * n) ∣ 2 ^ 64 := pow_dvd_pow 2 (by omega)
  have hmod : ((asU64 v % 2 ^ (8 * n) : ℕ) : ℤ) = wrapUnsigned (8 * n) v := by
    push_cast
    rw [cast_asU64, Int.emod_emod_of_dvd _ hdvd]
    rfl
  unfold toLeBytes
  rw [leValue_leBytes, ← hmod, Int.toNat_natCast, show 256 ^ n = 2 ^ (8 * n) by
    rw [pow_mul]; norm_num, Nat.mod_mod]

/-- A format whose field is the whole word. -/
structure Format.Whole (fmt : Format) : Prop where
  size : fmt.size ≤ 8
  lo : fmt.field.lo = 0
  top : fmt.field.top = 8 * fmt.size
  pieces : fmt.field.pieces = [⟨0, 8 * fmt.size, 0⟩]

/-- Data written to the mapping, where a value agrees with it. -/
theorem write_patched {m : ByteBuffer} {off : ℕ} {x v : ℤ} (h : off + fmt.size ≤ m.len)
    (hwhole : fmt.Whole) (hv : (2 : ℤ) ^ (8 * fmt.size) ∣ x - v) :
    ∃ m', orPanic (m.write off (toLeBytes fmt.size x)) = .ok m' ∧
      (Patched [⟨0, fmt, v⟩] m m' off ↔ fmt.field.Represents fmt.reading v) := by
  obtain ⟨hsize, hlo, htop, hpieces⟩ := hwhole
  have hlen : (toLeBytes fmt.size x).length = fmt.size := leBytes_length _ _
  obtain ⟨m', hm', hput⟩ := write_wordPut (m := m) off (toLeBytes fmt.size x)
    (by rwa [hlen])
  refine ⟨m', hm', ?_⟩
  rw [hlen] at hput
  -- no bit of the word is kept
  have hword : leValue (toLeBytes fmt.size x) =
      (wordAt m.get off fmt.size &&& 0) ||| fmt.field.encode (asU64 x) := by
    rw [leValue_toLeBytes hsize, Nat.and_zero, Nat.zero_or]
    simp [Field.encode, hpieces, Piece.put]
  have hclears : fmt.field.Clears 0 (8 * fmt.size) := by
    intro i hi
    have hcov : fmt.field.Covers i := by
      refine ⟨_, hpieces ▸ List.mem_singleton.mpr rfl, Nat.zero_le i, ?_⟩
      rwa [Nat.zero_add]
    rw [decide_eq_true hcov, Nat.zero_testBit]
    rfl
  rw [hword] at hput
  refine hput.patched_iff.trans (hput.written_iff hclears (by omega) ?_)
  rw [hlo, htop]
  simpa using hv

/-! ## The bits of the instructions -/

theorem asU32_eq (v : ℤ) : asU32 v = asU64 v % 2 ^ 32 := by
  unfold asU32 asU64 wrapUnsigned
  omega

/-- A mask of `w` bits from `lo` on. -/
theorem land_mask (x lo w : ℕ) : x &&& (2 ^ w - 1) <<< lo = (x >>> lo % 2 ^ w) <<< lo := by
  refine Nat.eq_of_testBit_eq fun i => ?_
  simp only [Nat.testBit_and, Nat.testBit_shiftLeft, Nat.testBit_two_pow_sub_one,
    Nat.testBit_mod_two_pow, Nat.testBit_shiftRight]
  by_cases hi : lo ≤ i
  · rw [Nat.add_sub_cancel' hi]
    simp only [hi, decide_true, Bool.true_and]
    exact Bool.and_comm _ _
  · simp only [ge_iff_le, hi, decide_false, Bool.false_and, Bool.and_false]

/-- A mask of `w` low bits. -/
theorem land_lowMask (x w : ℕ) : x &&& (2 ^ w - 1) = x % 2 ^ w :=
  Nat.and_two_pow_sub_one_eq_mod x w

/-- A piece of a number of 32 bits is that of the number of 64 bits. -/
theorem mod_shiftRight_mod (x : ℕ) {src w : ℕ} (h : src + w ≤ 32) :
    (x % 2 ^ 32) >>> src % 2 ^ w = x >>> src % 2 ^ w := by
  refine Nat.eq_of_testBit_eq fun i => ?_
  simp only [Nat.testBit_mod_two_pow, Nat.testBit_shiftRight]
  by_cases hi : i < w
  · simp [hi, show src + i < 32 by omega]
  · simp [hi]

theorem encode_single (lo w dst x : ℕ) :
    (Field.single lo w dst).encode x = (x >>> lo % 2 ^ w) <<< dst :=
  Nat.or_zero _

theorem rvI_bits (v : ℤ) : (asU32 v &&& 0xFFF) <<< 20 = Format.rvI.field.encode (asU64 v) := by
  rw [Format.rvI, encode_single, asU32_eq, ← mod_shiftRight_mod _ (by decide : 0 + 12 ≤ 32)]
  rw [show (0xFFF : ℕ) = 2 ^ 12 - 1 from rfl, land_lowMask]
  rfl

theorem rvS_bits (v : ℤ) : rvSBits (asU32 v &&& 0xFFF) = Format.rvS.field.encode (asU64 v) := by
  have hlo : ((asU64 v % 2 ^ 32) &&& 0xFFF) = asU64 v % 2 ^ 12 := by
    rw [show (0xFFF : ℕ) = 2 ^ 12 - 1 from rfl, land_lowMask]
    omega
  show ((_ >>> 5) <<< 25 ||| (_ &&& (2 ^ 5 - 1)) <<< 7) =
    ((asU64 v >>> 5 % 2 ^ 7) <<< 25 ||| ((asU64 v >>> 0 % 2 ^ 5) <<< 7 ||| 0))
  rw [asU32_eq, hlo, land_lowMask, Nat.or_zero]
  simp only [Nat.shiftRight_eq_div_pow]
  congr 2 <;> omega

theorem rvB_bits (v : ℤ) : rvBBits (asU32 v) = Format.rvB.field.encode (asU64 v) := by
  show ((_ >>> 12 &&& (2 ^ 1 - 1)) <<< 31 ||| (_ >>> 5 &&& (2 ^ 6 - 1)) <<< 25 |||
      (_ >>> 1 &&& (2 ^ 4 - 1)) <<< 8 ||| (_ >>> 11 &&& (2 ^ 1 - 1)) <<< 7) =
    ((asU64 v >>> 12 % 2 ^ 1) <<< 31 ||| ((asU64 v >>> 5 % 2 ^ 6) <<< 25 |||
      ((asU64 v >>> 1 % 2 ^ 4) <<< 8 ||| ((asU64 v >>> 11 % 2 ^ 1) <<< 7 ||| 0))))
  simp only [land_lowMask, asU32_eq, Nat.or_zero, Nat.lor_assoc]
  rw [mod_shiftRight_mod _ (by decide : 12 + 1 ≤ 32), mod_shiftRight_mod _ (by decide : 5 + 6 ≤ 32),
    mod_shiftRight_mod _ (by decide : 1 + 4 ≤ 32), mod_shiftRight_mod _ (by decide : 11 + 1 ≤ 32)]

theorem rvJ_bits (v : ℤ) : rvJBits (asU32 v) = Format.rvJ.field.encode (asU64 v) := by
  show ((_ >>> 20 &&& (2 ^ 1 - 1)) <<< 31 ||| (_ >>> 1 &&& (2 ^ 10 - 1)) <<< 21 |||
      (_ >>> 11 &&& (2 ^ 1 - 1)) <<< 20 ||| (_ >>> 12 &&& (2 ^ 8 - 1)) <<< 12) =
    ((asU64 v >>> 20 % 2 ^ 1) <<< 31 ||| ((asU64 v >>> 1 % 2 ^ 10) <<< 21 |||
      ((asU64 v >>> 11 % 2 ^ 1) <<< 20 ||| ((asU64 v >>> 12 % 2 ^ 8) <<< 12 ||| 0))))
  simp only [land_lowMask, asU32_eq, Nat.or_zero, Nat.lor_assoc]
  rw [mod_shiftRight_mod _ (by decide : 20 + 1 ≤ 32),
    mod_shiftRight_mod _ (by decide : 1 + 10 ≤ 32),
    mod_shiftRight_mod _ (by decide : 11 + 1 ≤ 32), mod_shiftRight_mod _ (by decide : 12 + 8 ≤ 32)]

theorem rvHi_bits (v : ℤ) : rvHiBits v = Format.rvU.field.encode (asU64 (v + 2 ^ 11)) := by
  obtain ⟨k, hk, -⟩ := wrapSigned_spec (v + 0x800)
  rw [Format.rvU, encode_single, rvHiBits, hk]
  simp only [Nat.shiftRight_eq_div_pow, Nat.shiftLeft_eq, asU32, asU64, wrapUnsigned]
  omega

theorem rvHi20_bits (v : ℤ) : (asU32 v + 0x800) % 2 ^ 32 &&& 0xFFFFF000 =
    Format.rvU.field.encode (asU64 (v + 2 ^ 11)) := by
  rw [Format.rvU, encode_single, show (0xFFFFF000 : ℕ) = (2 ^ 20 - 1) <<< 12 from rfl, land_mask]
  simp only [Nat.shiftRight_eq_div_pow, Nat.shiftLeft_eq, asU32, asU64, wrapUnsigned]
  omega

theorem larchB26_bits (v : ℤ) :
    larchB26Bits (asU32 (v / 4)) = Format.larchB26.field.encode (asU64 v) := by
  have hquot : asU32 (v / 4) = asU64 v / 4 % 2 ^ 32 := by
    simp only [asU32, asU64, wrapUnsigned]
    omega
  show ((_ &&& (2 ^ 16 - 1)) <<< 10 ||| (_ >>> 16 &&& (2 ^ 10 - 1))) =
    ((asU64 v >>> 2 % 2 ^ 16) <<< 10 ||| ((asU64 v >>> 18 % 2 ^ 10) <<< 0 ||| 0))
  rw [hquot, land_lowMask, land_lowMask, mod_shiftRight_mod _ (by decide : 16 + 10 ≤ 32),
    Nat.or_zero, Nat.shiftLeft_zero]
  simp only [Nat.shiftRight_eq_div_pow]
  congr 2 <;> omega

theorem larchHi20_bits (patch dest : ℤ) :
    (asU32 (larchPageDelta patch dest) &&& 0xFFFFF) <<< 5 =
      Format.larchHi20.field.encode (asU64 (dest + 2 ^ 11 - patch / 2 ^ 12 * 2 ^ 12)) := by
  obtain ⟨i, hi, -⟩ := wrapSigned_spec (dest + 0x800)
  obtain ⟨j, hj, -⟩ := wrapSigned_spec patch
  obtain ⟨k, hk, -⟩ := wrapSigned_spec (wrapSigned 64 (dest + 0x800) / 2 ^ 12 -
    wrapSigned 64 patch / 2 ^ 12)
  rw [Format.larchHi20, encode_single, show (0xFFFFF : ℕ) = 2 ^ 20 - 1 from rfl, land_lowMask,
    larchPageDelta, hk, hi, hj]
  simp only [Nat.shiftRight_eq_div_pow, Nat.shiftLeft_eq, asU32, asU64, wrapUnsigned]
  omega

theorem larchLo12_bits (v : ℤ) :
    (asU32 v &&& 0xFFF) <<< 10 = Format.larchLo12.field.encode (asU64 v) := by
  rw [Format.larchLo12, encode_single, asU32_eq, ← mod_shiftRight_mod _ (by decide : 0 + 12 ≤ 32),
    show (0xFFF : ℕ) = 2 ^ 12 - 1 from rfl, land_lowMask]
  rfl

theorem ppcI_bits (v : ℤ) :
    (asU32 (v / 4) &&& 0x00FFFFFF) <<< 2 = Format.ppcI.field.encode (asU64 v) := by
  rw [Format.ppcI, encode_single, show (0x00FFFFFF : ℕ) = 2 ^ 24 - 1 from rfl, land_lowMask]
  simp only [Nat.shiftRight_eq_div_pow, Nat.shiftLeft_eq, asU32, asU64, wrapUnsigned]
  omega

theorem ppcHa_bits (v : ℤ) : ppcHaBits v = Format.ppcDHi.field.encode (asU64 (v + 2 ^ 15)) := by
  rw [Format.ppcDHi, encode_single, ppcHaBits, show (0xFFFF : ℕ) = 2 ^ 16 - 1 from rfl,
    land_lowMask, show (1 : ℕ) = 2 ^ 1 - 1 from rfl, land_lowMask]
  simp only [Nat.shiftRight_eq_div_pow, Nat.shiftLeft_eq, asU32, asU64, wrapUnsigned]
  omega

theorem ppcD_bits (v : ℤ) : asU32 v &&& 0xFFFF = Format.ppcD.field.encode (asU64 v) := by
  rw [Format.ppcD, encode_single, asU32_eq, ← mod_shiftRight_mod _ (by decide : 0 + 16 ≤ 32),
    show (0xFFFF : ℕ) = 2 ^ 16 - 1 from rfl, land_lowMask]
  rfl

theorem ppcDS_bits (v : ℤ) : asU32 v &&& 0xFFFC = Format.ppcDS.field.encode (asU64 v) := by
  rw [Format.ppcDS, encode_single, asU32_eq, ← mod_shiftRight_mod _ (by decide : 2 + 14 ≤ 32),
    show (0xFFFC : ℕ) = (2 ^ 14 - 1) <<< 2 from rfl, land_mask]

theorem ppcDHi_bits (v : ℤ) :
    asU32 (v / 2 ^ 16) &&& 0xFFFF = Format.ppcDHi.field.encode (asU64 v) := by
  rw [Format.ppcDHi, encode_single, show (0xFFFF : ℕ) = 2 ^ 16 - 1 from rfl, land_lowMask]
  simp only [Nat.shiftRight_eq_div_pow, Nat.shiftLeft_eq, asU32, asU64, wrapUnsigned]
  omega

theorem call26_bits (v : ℤ) :
    (wrapUnsigned 26 (v / 4)).toNat = Format.call26.field.encode (asU64 v) := by
  rw [Format.call26, encode_single]
  simp only [Nat.shiftRight_eq_div_pow, Nat.shiftLeft_eq, asU64, wrapUnsigned]
  omega

theorem adrp_bits (patch dest : ℤ) : adrpBits patch dest = Format.adrp.field.encode
    (asU64 (dest / 2 ^ 12 * 2 ^ 12 - patch / 2 ^ 12 * 2 ^ 12)) := by
  obtain ⟨i, hi, -⟩ := wrapSigned_spec dest
  obtain ⟨j, hj, -⟩ := wrapSigned_spec patch
  obtain ⟨k, hk, -⟩ := wrapSigned_spec (wrapSigned 64 dest / 4096 * 4096 -
    wrapSigned 64 patch / 4096 * 4096)
  show _ = ((_ >>> 12 % 2 ^ 2) <<< 29 ||| ((_ >>> 14 % 2 ^ 19) <<< 5 ||| 0))
  unfold adrpBits
  rw [hk, hi, hj, Nat.or_zero]
  simp only [Nat.shiftRight_eq_div_pow, asU64, wrapUnsigned]
  congr 2 <;> omega

theorem lo12_bits (v : ℤ) {shift : ℕ} : (wrapUnsigned 12 v).toNat >>> shift <<< 10 =
    (Format.lo12 shift).field.encode (asU64 (wrapUnsigned 12 v)) := by
  have hlt := wrapUnsigned_lt 12 v
  have hnonneg := wrapUnsigned_nonneg 12 v
  have heq : asU64 (wrapUnsigned 12 v) = (wrapUnsigned 12 v).toNat := by
    unfold asU64
    rw [wrapUnsigned_of_bounds hnonneg (hlt.trans (by decide))]
  rw [Format.lo12, encode_single, heq, Nat.shiftRight_eq_div_pow]
  have hle : (wrapUnsigned 12 v).toNat / 2 ^ shift ≤ (wrapUnsigned 12 v).toNat :=
    Nat.div_le_self _ _
  rw [Nat.mod_eq_of_lt (by omega)]

/-! ## Outcomes -/

section

variable {r : ArchRelocation} {m m' : ByteBuffer} {off : ℕ} {patch target addend : ℤ}
  {st st' : RelocState}

theorem relocatesExactly_of_error
    (h : applyArchRelocation m off patch target addend r st = .error .error) :
    RelocatesExactly r m off patch target addend st := by
  unfold RelocatesExactly
  rw [h]
  trivial

/-- A relocation without words is refused. -/
theorem relocatesExactly_iff_of_error
    (h : applyArchRelocation m off patch target addend r st = .error .error)
    (hslots : r.slots st patch target addend = none) :
    RelocatesExactly r m off patch target addend st ↔ FieldsFit r patch target addend st := by
  refine iff_of_true (relocatesExactly_of_error h) fun slots hs => ?_
  rw [hslots] at hs
  cases hs

theorem relocatesExactly_iff_of_ok {slots : List Slot}
    (h : applyArchRelocation m off patch target addend r st = .ok (m', st'))
    (hslots : r.slots st patch target addend = some slots)
    (hrec : Records r patch target addend st st')
    (hpatched : Patched slots m m' off ↔
      ∀ s ∈ slots, s.format.field.Represents s.format.reading s.value) :
    RelocatesExactly r m off patch target addend st ↔ FieldsFit r patch target addend st := by
  unfold RelocatesExactly FieldsFit
  rw [h, hslots]
  constructor
  · rintro ⟨_, hsome, hp, -⟩ _ hs
    cases hsome
    cases hs
    exact hpatched.mp hp
  · intro hfit
    exact ⟨slots, rfl, hpatched.mpr (hfit slots rfl), hrec⟩

/-- Only a high part records its value. -/
theorem Records.refl (h : r ≠ .riscv64 .pcrelHi20) : Records r patch target addend st st :=
  ⟨rfl, fun _ => by rw [if_neg fun hr => h hr.1]⟩

/-- The word of a relocation lies in the mapping. -/
theorem InMapping.word {rest : List Slot} (h : InMapping r m off patch target addend st)
    (hslots : r.slots st patch target addend = some (⟨0, fmt, v⟩ :: rest)) :
    off + fmt.size ≤ m.len :=
  h _ hslots _ List.mem_cons_self

/-- A relocation that patches one instruction with the bits of `x`, where its value agrees with
    `x`. -/
theorem relocatesExactly_iff_of_insn {bits : ℕ} {x v : ℤ} (mask : ℕ)
    (hin : InMapping r m off patch target addend st)
    (hslots : r.slots st patch target addend = some [⟨0, fmt, v⟩])
    (hrec : Records r patch target addend st st')
    (happly : applyArchRelocation m off patch target addend r st =
      (patchInsn m off mask bits >>= fun m => .ok (m, st'))) (hsize : fmt.size = 4)
    (hmask : fmt.field.Clears mask 32) (htop : fmt.field.top ≤ 64)
    (hbits : bits = fmt.field.encode (asU64 x)) (hq : (2 : ℤ) ^ fmt.field.top ∣
      x / 2 ^ fmt.field.lo * 2 ^ fmt.field.lo - v / 2 ^ fmt.field.lo * 2 ^ fmt.field.lo) :
    RelocatesExactly r m off patch target addend st ↔ FieldsFit r patch target addend st := by
  have hoff : off + 4 ≤ m.len := hsize ▸ hin.word hslots
  obtain ⟨m', hm', hput, hiff⟩ := patchInsn_written fmt mask hoff hsize hmask htop hbits hq
  rw [hm'] at happly
  refine relocatesExactly_iff_of_ok happly hslots hrec ((hput.patched_iff.trans hiff).trans ?_)
  rw [List.forall_mem_singleton]

/-- A relocation of data. -/
theorem relocatesExactly_iff_of_data (hin : InMapping r m off patch target addend st)
    (hslots : r.slots st patch target addend = some [⟨0, fmt, v⟩])
    (hrec : Records r patch target addend st st') (hwhole : fmt.Whole)
    (happly : applyArchRelocation m off patch target addend r st =
      (orPanic (m.write off (toLeBytes fmt.size v)) >>= fun m => .ok (m, st'))) :
    RelocatesExactly r m off patch target addend st ↔ FieldsFit r patch target addend st := by
  obtain ⟨m', hm', hpatched⟩ := write_patched (x := v) (v := v) (hin.word hslots) hwhole
    (by rw [sub_self]; exact dvd_zero _)
  rw [hm'] at happly
  refine relocatesExactly_iff_of_ok happly hslots hrec (hpatched.trans ?_)
  rw [List.forall_mem_singleton]

end

/-! ## Parts of values -/

theorem congr_refl (top lo : ℕ) (v : ℤ) :
    (2 : ℤ) ^ top ∣ v / 2 ^ lo * 2 ^ lo - v / 2 ^ lo * 2 ^ lo := by
  rw [sub_self]
  exact dvd_zero _

/-- The high part is the number rounded. -/
theorem high_congr (top w : ℕ) (v : ℤ) : (2 : ℤ) ^ top ∣
    (v + 2 ^ w) / 2 ^ (w + 1) * 2 ^ (w + 1) -
      (v - wrapSigned (w + 1) v) / 2 ^ (w + 1) * 2 ^ (w + 1) := by
  rw [sub_wrapSigned, Int.mul_ediv_cancel _ (by positivity)]
  exact congr_refl top (w + 1) _

/-- The low part is the number in its low bits. -/
theorem low_congr (w : ℕ) (v : ℤ) :
    (2 : ℤ) ^ w ∣ v / 2 ^ 0 * 2 ^ 0 - wrapSigned w v / 2 ^ 0 * 2 ^ 0 := by
  simpa using dvd_sub_wrapSigned w v

theorem Format.data64_whole : Format.data64.Whole := ⟨by decide, rfl, rfl, rfl⟩

theorem Format.data32_whole : Format.data32.Whole := ⟨by decide, rfl, rfl, rfl⟩

theorem Format.signed32_whole : Format.signed32.Whole := ⟨by decide, rfl, rfl, rfl⟩

theorem Format.unsigned32_whole : Format.unsigned32.Whole := ⟨by decide, rfl, rfl, rfl⟩

/-! ## RISC-V -/

section

variable {m : ByteBuffer} {off : ℕ} {patch target addend : ℤ} {st : RelocState}

/-- Both instructions of a call are patched. -/
theorem riscv_call_iff {rType : RiscvRelocation} (hr : rType = .call ∨ rType = .callPlt)
    (hin : InMapping (.riscv64 rType) m off patch target addend st) :
    RelocatesExactly (.riscv64 rType) m off patch target addend st ↔
      FieldsFit (.riscv64 rType) patch target addend st := by
  let v := wrapSigned 64 (target + addend - patch)
  have hslots : (ArchRelocation.riscv64 rType).slots st patch target addend =
      some [⟨0, .rvU, v - wrapSigned 12 v⟩, ⟨4, .rvI, wrapSigned 12 v⟩] := by
    rcases hr with rfl | rfl <;> rfl
  have happly : applyArchRelocation m off patch target addend (.riscv64 rType) st =
      (patchInsn m off rvUMask (rvHiBits v) >>= fun m =>
        patchInsn m (off + 4) rvIMask ((asU32 v &&& 0xFFF) <<< 20) >>= fun m => .ok (m, st)) := by
    rcases hr with rfl | rfl <;> rfl
  have hrec : Records (.riscv64 rType) patch target addend st st := by
    rcases hr with rfl | rfl <;> exact .refl (by simp)
  have hlen : off + 4 + 4 ≤ m.len := hin _ hslots ⟨4, .rvI, wrapSigned 12 v⟩ (by simp)
  obtain ⟨m₁, hm₁, hput₁, hiff₁⟩ := patchInsn_written .rvU rvUMask
    (show off + 4 ≤ m.len by omega) rfl (by decide) (by decide) (rvHi_bits v) (high_congr 32 11 v)
  obtain ⟨m₂, hm₂, hput₂, hiff₂⟩ := patchInsn_written .rvI rvIMask
    (show off + 4 + 4 ≤ m₁.len by rw [hput₁.len]; exact hlen) rfl (by decide) (by decide) (rvI_bits v)
    (low_congr 12 v)
  have happly' : applyArchRelocation m off patch target addend (.riscv64 rType) st =
      .ok (m₂, st) := by
    simp only [happly, hm₁, hm₂, bind, Except.bind]
  -- each of the two words is that of its own patch
  have hfirst : (⟨0, .rvU, v - wrapSigned 12 v⟩ : Slot).Written m.get m₂.get off ↔
      (⟨0, .rvU, v - wrapSigned 12 v⟩ : Slot).Written m.get m₁.get off :=
    Slot.written_congr rfl (wordAt_congr fun i hlo hhi => hput₂.outside i (Or.inl (by
      change i < off + 0 + 4 at hhi
      omega)))
  have hsecond : (⟨4, .rvI, wrapSigned 12 v⟩ : Slot).Written m.get m₂.get off ↔
      (⟨0, .rvI, wrapSigned 12 v⟩ : Slot).Written m₁.get m₂.get (off + 4) :=
    Slot.written_congr (wordAt_congr fun i hlo _ => (hput₁.outside i (Or.inr hlo)).symm) rfl
  refine relocatesExactly_iff_of_ok happly' hslots hrec ?_
  rw [List.forall_mem_cons, List.forall_mem_singleton, ← hiff₁, ← hiff₂, ← hfirst, ← hsecond]
  constructor
  · exact fun h => ⟨h.written _ (by simp), h.written _ (by simp)⟩
  · rintro ⟨h₁, h₂⟩
    refine ⟨hput₂.len.trans hput₁.len, fun i hi => ?_, fun s hs => ?_⟩
    · have hi₁ := hi ⟨0, .rvU, v - wrapSigned 12 v⟩ (by simp)
      have hi₂ := hi ⟨4, .rvI, wrapSigned 12 v⟩ (by simp)
      exact (hput₂.outside i hi₂).trans (hput₁.outside i hi₁)
    · rcases List.mem_cons.mp hs with rfl | hs
      · exact h₁
      · rwa [List.mem_singleton.mp hs]

theorem riscv_pcrelHi20_records : Records (.riscv64 .pcrelHi20) patch target addend st
    { st with pcrelHi := (patch, wrapSigned 64 (target + addend - patch)) :: st.pcrelHi } := by
  refine ⟨rfl, fun label => ?_⟩
  rw [List.lookup_cons]
  by_cases h : label = patch
  · simp [h]
  · simp [h, beq_eq_false_iff_ne.mpr h]

theorem relocRiscv64_iff (rType : RiscvRelocation)
    (hin : InMapping (.riscv64 rType) m off patch target addend st) :
    RelocatesExactly (.riscv64 rType) m off patch target addend st ↔
      FieldsFit (.riscv64 rType) patch target addend st := by
  cases rType with
  | call => exact riscv_call_iff (Or.inl rfl) hin
  | callPlt => exact riscv_call_iff (Or.inr rfl) hin
  | pcrelHi20 =>
    exact relocatesExactly_iff_of_insn _ hin rfl riscv_pcrelHi20_records rfl rfl (by decide)
      (by decide) (rvHi_bits _) (high_congr 32 11 _)
  | pcrelLo12I =>
    rcases hfull : st.pcrelHi.lookup target with _ | full
    · refine relocatesExactly_iff_of_error ?_ ?_
      · simp only [applyArchRelocation, relocRiscv64, hfull, orError, bind, Except.bind]
      · simp only [ArchRelocation.slots, slotsRiscv64, hfull, Option.map_none]
    · refine relocatesExactly_iff_of_insn (x := full) rvIMask hin ?_
        (.refl (by simp)) ?_ rfl (by decide) (by decide) (rvI_bits _) (low_congr 12 _)
      · simp only [ArchRelocation.slots, slotsRiscv64, hfull, Option.map_some]
      · simp only [applyArchRelocation, relocRiscv64, hfull, orError, bind, Except.bind]
  | pcrelLo12S =>
    rcases hfull : st.pcrelHi.lookup target with _ | full
    · refine relocatesExactly_iff_of_error ?_ ?_
      · simp only [applyArchRelocation, relocRiscv64, hfull, orError, bind, Except.bind]
      · simp only [ArchRelocation.slots, slotsRiscv64, hfull, Option.map_none]
    · refine relocatesExactly_iff_of_insn (x := full) rvSMask hin ?_
        (.refl (by simp)) ?_ rfl (by decide) (by decide) (rvS_bits _) (low_congr 12 _)
      · simp only [ArchRelocation.slots, slotsRiscv64, hfull, Option.map_some]
      · simp only [applyArchRelocation, relocRiscv64, hfull, orError, bind, Except.bind]
  | hi20 =>
    exact relocatesExactly_iff_of_insn _ hin rfl (.refl (by simp)) rfl rfl (by decide) (by decide)
      (rvHi20_bits _) (high_congr 32 11 _)
  | lo12I =>
    exact relocatesExactly_iff_of_insn _ hin rfl (.refl (by simp)) rfl rfl (by decide) (by decide)
      (rvI_bits _) (low_congr 12 _)
  | lo12S =>
    exact relocatesExactly_iff_of_insn _ hin rfl (.refl (by simp)) rfl rfl (by decide) (by decide)
      (rvS_bits _) (low_congr 12 _)
  | branch =>
    exact relocatesExactly_iff_of_insn _ hin rfl (.refl (by simp)) rfl rfl (by decide) (by decide)
      (rvB_bits _) (congr_refl 13 1 _)
  | jal =>
    exact relocatesExactly_iff_of_insn _ hin rfl (.refl (by simp)) rfl rfl (by decide) (by decide)
      (rvJ_bits _) (congr_refl 21 1 _)
  | abs64 =>
    exact relocatesExactly_iff_of_data hin rfl (.refl (by simp)) Format.data64_whole rfl
  | abs32 =>
    exact relocatesExactly_iff_of_data hin rfl (.refl (by simp)) Format.data32_whole rfl
  | relax =>
    refine relocatesExactly_iff_of_ok rfl rfl (.refl (by simp))
      ⟨fun _ => by simp, fun _ => ⟨rfl, fun _ _ => rfl, by simp⟩⟩
  | unsupported => exact relocatesExactly_iff_of_error rfl rfl

/-! ## LoongArch -/

/-- The page difference is rounded as the low part needs it. -/
theorem larch_page_congr (patch dest : ℤ) : (2 : ℤ) ^ 32 ∣
    (dest + 2 ^ 11 - patch / 2 ^ 12 * 2 ^ 12) / 2 ^ 12 * 2 ^ 12 -
      (wrapSigned 64 (dest - patch / 2 ^ 12 * 2 ^ 12) -
        wrapSigned 12 (wrapSigned 64 (dest - patch / 2 ^ 12 * 2 ^ 12))) / 2 ^ 12 * 2 ^ 12 := by
  obtain ⟨k, hk, -⟩ := wrapSigned_spec (dest - patch / 2 ^ 12 * 2 ^ 12)
  rw [sub_wrapSigned 11, hk]
  omega

theorem relocLoongArch64_iff (rType : LoongArchRelocation)
    (hin : InMapping (.loongArch64 rType) m off patch target addend st) :
    RelocatesExactly (.loongArch64 rType) m off patch target addend st ↔
      FieldsFit (.loongArch64 rType) patch target addend st := by
  cases rType with
  | b26 =>
    exact relocatesExactly_iff_of_insn _ hin rfl (.refl (by simp)) rfl rfl (by decide) (by decide)
      (larchB26_bits _) (congr_refl 28 2 _)
  | pcalaHi20 =>
    exact relocatesExactly_iff_of_insn _ hin rfl (.refl (by simp)) rfl rfl (by decide) (by decide)
      (larchHi20_bits patch (target + addend)) (larch_page_congr patch (target + addend))
  | pcalaLo12 =>
    exact relocatesExactly_iff_of_insn _ hin rfl (.refl (by simp)) rfl rfl (by decide) (by decide)
      (larchLo12_bits _) (low_congr 12 _)
  | abs64 =>
    exact relocatesExactly_iff_of_data hin rfl (.refl (by simp)) Format.data64_whole rfl
  | abs32 =>
    exact relocatesExactly_iff_of_data hin rfl (.refl (by simp)) Format.data32_whole rfl
  | relax =>
    exact relocatesExactly_iff_of_ok rfl rfl (.refl (by simp))
      ⟨fun _ => by simp, fun _ => ⟨rfl, fun _ _ => rfl, by simp⟩⟩
  | unsupported => exact relocatesExactly_iff_of_error rfl rfl

/-! ## PPC64 -/

/-- A relocation relative to the TOC: without a TOC it is refused. -/
theorem ppc_toc_iff {rType : PpcRelocation} {mask : ℕ} {bits : ℤ → ℕ} {x value : ℤ → ℤ}
    (hin : InMapping (.powerPc64 rType) m off patch target addend st)
    (hslots : (ArchRelocation.powerPc64 rType).slots st patch target addend =
      (st.tocBase.map fun toc => wrapSigned 64 (target + addend - toc)).map fun v =>
        [⟨0, fmt, value v⟩]) (happly : relocPpc64 m off patch target addend rType st =
      (st.tocValue target addend >>= fun v => patchInsn m off mask (bits v)))
    (hsize : fmt.size = 4) (hmask : fmt.field.Clears mask 32) (htop : fmt.field.top ≤ 64)
    (hbits : ∀ v, bits v = fmt.field.encode (asU64 (x v))) (hq : ∀ v, (2 : ℤ) ^ fmt.field.top ∣
      x v / 2 ^ fmt.field.lo * 2 ^ fmt.field.lo - value v / 2 ^ fmt.field.lo * 2 ^ fmt.field.lo) :
    RelocatesExactly (.powerPc64 rType) m off patch target addend st ↔
      FieldsFit (.powerPc64 rType) patch target addend st := by
  rcases htoc : st.tocBase with _ | toc
  · refine relocatesExactly_iff_of_error ?_ ?_
    · simp only [applyArchRelocation, happly, RelocState.tocValue, htoc, orError, bind,
        Except.bind]
    · rw [hslots, htoc]
      rfl
  · refine relocatesExactly_iff_of_insn mask hin ?_ (.refl (by simp)) ?_ hsize hmask htop
      (hbits (wrapSigned 64 (target + addend - toc))) (hq _)
    · rw [hslots, htoc]
      rfl
    · simp only [applyArchRelocation, happly, RelocState.tocValue, htoc, orError, bind,
        Except.bind]

theorem relocPpc64_iff (rType : PpcRelocation)
    (hin : InMapping (.powerPc64 rType) m off patch target addend st) :
    RelocatesExactly (.powerPc64 rType) m off patch target addend st ↔
      FieldsFit (.powerPc64 rType) patch target addend st := by
  cases rType with
  | rel24 =>
    exact relocatesExactly_iff_of_insn _ hin rfl (.refl (by simp)) rfl rfl (by decide) (by decide)
      (ppcI_bits _) (congr_refl 26 2 _)
  | toc16Ha =>
    exact ppc_toc_iff hin rfl rfl rfl (by decide) (by decide) ppcHa_bits (high_congr 32 15)
  | toc16Lo =>
    exact ppc_toc_iff hin rfl rfl rfl (by decide) (by decide) ppcD_bits (low_congr 16)
  | toc16LoDs =>
    refine ppc_toc_iff hin rfl rfl rfl (by decide) (by decide) ppcDS_bits fun v => ?_
    obtain ⟨k, hk⟩ := dvd_sub_wrapSigned 16 v
    show (2 : ℤ) ^ 16 ∣ v / 2 ^ 2 * 2 ^ 2 - wrapSigned 16 v / 2 ^ 2 * 2 ^ 2
    omega
  | rel32 =>
    exact relocatesExactly_iff_of_data hin rfl (.refl (by simp)) Format.signed32_whole rfl
  | addr64 =>
    exact relocatesExactly_iff_of_data hin rfl (.refl (by simp)) Format.data64_whole rfl
  | addr32 =>
    exact relocatesExactly_iff_of_data hin rfl (.refl (by simp)) Format.data32_whole rfl
  | toc16 =>
    exact ppc_toc_iff hin rfl rfl rfl (by decide) (by decide) ppcD_bits (congr_refl 16 0)
  | toc16Hi =>
    refine ppc_toc_iff hin rfl rfl rfl (by decide) (by decide) ppcDHi_bits fun v => ?_
    show (2 : ℤ) ^ 32 ∣ v / 2 ^ 16 * 2 ^ 16 - (v - wrapUnsigned 16 v) / 2 ^ 16 * 2 ^ 16
    unfold wrapUnsigned
    omega
  | unsupported => exact relocatesExactly_iff_of_error rfl rfl

/-! ## aarch64 -/

theorem aarch64_insn_apply {mask bits : ℕ}
    (h : relocAarch64 m off patch target addend rType st.veneers =
      (patchInsn m off mask bits >>= fun m => .ok (m, st.veneers))) :
    applyArchRelocation m off patch target addend (.aarch64 rType) st =
      (patchInsn m off mask bits >>= fun m => .ok (m, st)) := by
  simp only [applyArchRelocation, h]
  cases patchInsn m off mask bits with
  | error e => rfl
  | ok m' => rfl

/-- A branch within reach. -/
theorem aarch64_call26_iff (hr : rType = .aarch64Call26 ∨ rType = .aarch64Jump26)
    (hin : InMapping (.aarch64 rType) m off patch target addend st)
    (hdirect : ¬ ThroughVeneer (.aarch64 rType) m off patch target addend) :
    RelocatesExactly (.aarch64 rType) m off patch target addend st ↔
      FieldsFit (.aarch64 rType) patch target addend st := by
  have hreach : -call26Max ≤ wrapSigned 64 (target + addend - patch) ∧
      wrapSigned 64 (target + addend - patch) ≤ call26Max := by
    by_contra hfar
    refine hdirect ⟨?_, hfar⟩
    rcases hr with rfl | rfl <;> decide
  have hslots : (ArchRelocation.aarch64 rType).slots st patch target addend =
      some [⟨0, .call26, wrapSigned 64 (target + addend - patch)⟩] := by
    rcases hr with rfl | rfl <;> rfl
  have hreloc : relocAarch64 m off patch target addend rType st.veneers =
      relocCall26 m off patch target addend st.veneers := by
    rcases hr with rfl | rfl <;> rfl
  refine relocatesExactly_iff_of_insn 0xFC000000 hin hslots (.refl (by simp))
    (aarch64_insn_apply ?_) rfl
    (by decide) (by decide) (call26_bits _) (congr_refl 28 2 _)
  rw [hreloc, relocCall26, call26Offset, wrapSigned_sub_wrapSigned, if_pos hreach]
  rfl

theorem aarch64_lo12_iff (hslots : slotsAarch64 patch target addend rType =
      some [⟨0, .lo12 (lo12Shift rType), wrapUnsigned 12 (target + addend)⟩])
    (hreloc : relocAarch64 m off patch target addend rType st.veneers =
      (patchInsn m off 0xFFC003FF ((wrapUnsigned 12 (target + addend)).toNat >>> lo12Shift rType
        <<< 10) >>= fun m => .ok (m, st.veneers)))
    (hin : InMapping (.aarch64 rType) m off patch target addend st) :
    RelocatesExactly (.aarch64 rType) m off patch target addend st ↔
      FieldsFit (.aarch64 rType) patch target addend st := by
  have hshift : lo12Shift rType ≤ 4 := by
    cases rType <;> decide
  have hmask : ∀ shift ≤ 4, (Format.lo12 shift).field.Clears 0xFFC003FF 32 := by decide
  exact relocatesExactly_iff_of_insn _ hin hslots (.refl (by simp)) (aarch64_insn_apply hreloc) rfl
    (hmask _ hshift) (show lo12Shift rType + 12 ≤ 64 by omega) (lo12_bits _) (congr_refl _ _ _)

theorem relocAarch64_iff (rType : RelocationType)
    (hin : InMapping (.aarch64 rType) m off patch target addend st)
    (hdirect : ¬ ThroughVeneer (.aarch64 rType) m off patch target addend) :
    RelocatesExactly (.aarch64 rType) m off patch target addend st ↔
      FieldsFit (.aarch64 rType) patch target addend st := by
  cases rType with
  | aarch64Call26 => exact aarch64_call26_iff (Or.inl rfl) hin hdirect
  | aarch64Jump26 => exact aarch64_call26_iff (Or.inr rfl) hin hdirect
  | aarch64AdrPrelPgHi21 =>
    refine relocatesExactly_iff_of_insn _ hin rfl (.refl (by simp)) (aarch64_insn_apply rfl) rfl
      (by decide) (by decide) (adrp_bits _ _) ?_
    obtain ⟨k, hk, -⟩ := wrapSigned_spec
      ((target + addend) / 2 ^ 12 * 2 ^ 12 - patch / 2 ^ 12 * 2 ^ 12)
    rw [hk]
    show (2 : ℤ) ^ 33 ∣ _ / 2 ^ 12 * 2 ^ 12 - _ / 2 ^ 12 * 2 ^ 12
    omega
  | aarch64AddAbsLo12Nc | aarch64Ldst8AbsLo12Nc | aarch64Ldst16AbsLo12Nc
  | aarch64Ldst32AbsLo12Nc | aarch64Ldst64AbsLo12Nc | aarch64Ldst128AbsLo12Nc =>
    exact aarch64_lo12_iff rfl rfl hin
  | x86Pc32 | x86Plt32 | x86GotPcRelX | x86RexGotPcRelX | x86Abs32S | x86Abs32 | x86Abs64
  | unsupported => exact relocatesExactly_iff_of_error rfl rfl

/-! ## x86-64 -/

theorem x86_data_apply {bytes : List UInt8}
    (h : relocX86_64 m off patch target addend rType st.veneers =
      (orPanic (m.write off bytes) >>= fun m => .ok (m, st.veneers))) :
    applyArchRelocation m off patch target addend (.x86_64 rType) st =
      (orPanic (m.write off bytes) >>= fun m => .ok (m, st)) := by
  simp only [applyArchRelocation, h]
  cases orPanic (m.write off bytes) with
  | error e => rfl
  | ok m' => rfl

/-- Data that fits is written, and other data is refused. -/
theorem x86_data_exact {p : Prop} [Decidable p]
    (hin : InMapping (.x86_64 rType) m off patch target addend st)
    (hslots : slotsX86 patch target addend rType = some [⟨0, fmt, v⟩]) (hwhole : fmt.Whole)
    (hfit : p → fmt.field.Represents fmt.reading v)
    (hok : p → relocX86_64 m off patch target addend rType st.veneers =
      (orPanic (m.write off (toLeBytes fmt.size v)) >>= fun m => .ok (m, st.veneers)))
    (herr : ¬ p → relocX86_64 m off patch target addend rType st.veneers = .error .error) :
    RelocatesExactly (.x86_64 rType) m off patch target addend st := by
  by_cases hp : p
  · refine (relocatesExactly_iff_of_data hin hslots (.refl (by simp)) hwhole
      (x86_data_apply (hok hp))).mpr fun slots hs s hmem => ?_
    rw [show (ArchRelocation.x86_64 rType).slots st patch target addend = _ from hslots] at hs
    cases hs
    rw [List.mem_singleton.mp hmem]
    exact hfit hp
  · refine relocatesExactly_of_error ?_
    simp only [applyArchRelocation, herr hp]
    rfl

/-- A field relative to its own place, without a veneer. -/
theorem x86_pc32_exact (hslots : slotsX86 patch target addend rType =
      some [⟨0, .signed32, wrapSigned 64 (target + addend - patch)⟩])
    (hreloc : relocX86_64 m off patch target addend rType st.veneers =
      relocPc32 m off patch target addend rType st.veneers)
    (hin : InMapping (.x86_64 rType) m off patch target addend st)
    (hdirect : ¬ ThroughVeneer (.x86_64 rType) m off patch target addend) :
    RelocatesExactly (.x86_64 rType) m off patch target addend st := by
  have hoff : off + 4 ≤ m.len := hin.word hslots
  refine x86_data_exact (p := fitsI32 (wrapSigned 64 (target + addend - patch))) hin hslots
    Format.signed32_whole (fun h => ⟨one_dvd _, h⟩) (fun h => ?_) (fun h => ?_)
  · rw [hreloc, relocPc32]
    simp only [if_pos h]
    rfl
  · have hbranch : ¬ (isBranchType .x86_64 rType = true ∧ isBranchInsn .x86_64 m.get off) :=
      fun hb => hdirect ⟨hb.1, hb.2, h⟩
    rw [hreloc, relocPc32]
    simp only [if_neg h, isDirectBranch_eq hoff, decide_eq_false hbranch]
    rfl

theorem relocX86_64_exact (rType : RelocationType)
    (hin : InMapping (.x86_64 rType) m off patch target addend st)
    (hdirect : ¬ ThroughVeneer (.x86_64 rType) m off patch target addend) :
    RelocatesExactly (.x86_64 rType) m off patch target addend st := by
  cases rType with
  | x86Pc32 | x86Plt32 | x86GotPcRelX | x86RexGotPcRelX => exact x86_pc32_exact rfl rfl hin hdirect
  | x86Abs32S =>
    refine x86_data_exact (p := fitsI32 (wrapSigned 64 (target + addend))) hin rfl
      Format.signed32_whole (fun h => ⟨one_dvd _, h⟩) (fun h => ?_) (fun h => ?_)
    · simp only [relocX86_64, if_pos h]
      rfl
    · simp only [relocX86_64, if_neg h]
  | x86Abs32 =>
    refine x86_data_exact (p := fitsU32 (wrapSigned 64 (target + addend))) hin rfl
      Format.unsigned32_whole (fun h => ⟨one_dvd _, h⟩) (fun h => ?_) (fun h => ?_)
    · simp only [relocX86_64, if_pos h]
      rfl
    · simp only [relocX86_64, if_neg h]
  | x86Abs64 =>
    have hbounds := wrapSigned_bounds (w := 64) (by decide) (target + addend)
    have hbytes : toLeBytes 8 (wrapSigned 64 (target + addend)) = toLeBytes 8 (target + addend) := by
      unfold toLeBytes
      rw [wrapUnsigned_wrapSigned]
    refine x86_data_exact (p := True) hin rfl Format.data64_whole (fun _ => ⟨one_dvd _, hbounds⟩)
      (fun _ => ?_) (fun h => absurd trivial h)
    rw [show Format.data64.size = 8 from rfl, hbytes]
    rfl
  | aarch64Call26 | aarch64Jump26 | aarch64AdrPrelPgHi21 | aarch64AddAbsLo12Nc
  | aarch64Ldst8AbsLo12Nc | aarch64Ldst16AbsLo12Nc | aarch64Ldst32AbsLo12Nc
  | aarch64Ldst64AbsLo12Nc | aarch64Ldst128AbsLo12Nc | unsupported =>
    exact relocatesExactly_of_error rfl

/-! ## All architectures -/

/-- A relocation is refused or patches its fields with their values exactly when the architecture
    checks the range, or every field represents its value. -/
theorem applyArchRelocation_exact_iff (r : ArchRelocation) (m : ByteBuffer) (off : ℕ)
    (patch target addend : ℤ) (st : RelocState)
    (hin : InMapping r m off patch target addend st)
    (hdirect : ¬ ThroughVeneer r m off patch target addend) :
    RelocatesExactly r m off patch target addend st ↔
      r.ChecksRange ∨ FieldsFit r patch target addend st := by
  cases r with
  | x86_64 rType => exact iff_of_true (relocX86_64_exact rType hin hdirect) (Or.inl trivial)
  | aarch64 rType => exact (relocAarch64_iff rType hin hdirect).trans (or_iff_right id).symm
  | riscv64 rType => exact (relocRiscv64_iff rType hin).trans (or_iff_right id).symm
  | loongArch64 rType => exact (relocLoongArch64_iff rType hin).trans (or_iff_right id).symm
  | powerPc64 rType => exact (relocPpc64_iff rType hin).trans (or_iff_right id).symm
  | other => exact iff_of_true (relocatesExactly_of_error rfl) (Or.inr fun _ hs => by cases hs)

end

/-- A mapping of two instructions, and no relocation applied before. -/
def freshState : RelocState := ⟨[], none, .new 16⟩

/-- A jump within reach. -/
theorem applyArchRelocation_exact_iff_jal :
    RelocatesExactly (.riscv64 .jal) (.zeroed 8) 0 0x1000 0x1800 0 freshState :=
  (applyArchRelocation_exact_iff (.riscv64 .jal) (.zeroed 8) 0 0x1000 0x1800 0 freshState
    (by rintro slots hs s hmem; cases hs; rw [List.mem_singleton.mp hmem]; decide)
    (fun h => h)).mpr
    (Or.inr (by rintro slots hs s hmem; cases hs; rw [List.mem_singleton.mp hmem]; decide))

/-- A jump of one MiB forward goes one MiB backward. -/
theorem applyArchRelocation_exact_fails :
    ¬ ∀ (r : ArchRelocation) (m : ByteBuffer) (off : ℕ) (patch target addend : ℤ)
      (st : RelocState), InMapping r m off patch target addend st →
      ¬ ThroughVeneer r m off patch target addend → LabelsAligned r patch target addend st →
      RelocatesExactly r m off patch target addend st := by
  intro h
  have hin : InMapping (.riscv64 .jal) (.zeroed 8) 0 0x1000 0x101000 0 freshState := by
    rintro slots hs s hmem
    cases hs
    rw [List.mem_singleton.mp hmem]
    decide
  have haligned : LabelsAligned (.riscv64 .jal) 0x1000 0x101000 0 freshState := by
    rintro slots hs s hmem
    cases hs
    rw [List.mem_singleton.mp hmem]
    decide
  have hfit := (relocRiscv64_iff .jal hin).mp
    (h (.riscv64 .jal) (.zeroed 8) 0 0x1000 0x101000 0 freshState hin (fun h => h) haligned)
  have hrep := hfit _ rfl _ (List.mem_singleton.mpr rfl)
  revert hrep
  decide

end Svod.Runtime.JitLoader
