/-
  Svod.Runtime.RelocationsSpec

  What the fields of a relocation hold, by the instruction formats.

  A relocation patches words of four or eight bytes.  Each word has a field, a
  way to read it, and the value that it is to hold; the rest of the word stays.
  A high part is the value without its low part, and the low part is signed
  wherever the instruction of the low part extends its sign.
-/

import Svod.Lib.BitField
import Svod.Runtime.JitLoaderSpec
import Svod.Runtime.Relocations

namespace Svod.Runtime.JitLoader

open Svod.Lib

/-! ## Formats -/

/-- A word of some bytes with a field in it. -/
structure Format where
  size : ℕ
  field : Field
  reading : Reading
  nonempty : field.lo < field.top
  inWord : ∀ p ∈ field.pieces, p.dst + p.width ≤ 8 * size

/-- A field in one piece: bits `lo` to `lo + width` of a value, from `dst` on in the word. -/
def Field.single (lo width dst : ℕ) : Field where
  lo := lo
  top := lo + width
  pieces := [⟨lo, width, dst⟩]
  apart := List.pairwise_singleton _ _
  within := by simp
  held := by
    intro i hi hlo
    exact ⟨_, List.mem_singleton.mpr rfl, hlo, hi⟩

namespace Format

def signed32 : Format := ⟨4, Field.single 0 32 0, .signed, by decide, by decide⟩

def unsigned32 : Format := ⟨4, Field.single 0 32 0, .unsigned, by decide, by decide⟩

/-- Data of 32 bits, signed or not. -/
def data32 : Format := ⟨4, Field.single 0 32 0, .either, by decide, by decide⟩

def data64 : Format := ⟨8, Field.single 0 64 0, .signed, by decide, by decide⟩

/-- `B` and `BL`: `imm26`. -/
def call26 : Format := ⟨4, Field.single 2 26 0, .signed, by decide, by decide⟩

/-- `ADRP`: `immlo` and `immhi`. -/
def adrp : Format where
  size := 4
  field := ⟨12, 33, [⟨12, 2, 29⟩, ⟨14, 19, 5⟩], by decide, by decide, by decide⟩
  reading := .signed
  nonempty := by decide
  inWord := by decide

/-- `ADD`, and loads and stores of `2 ^ shift` bytes: `imm12`, scaled by the size of the access. -/
def lo12 (shift : ℕ) : Format where
  size := 4
  field := Field.single shift 12 10
  reading := .unsigned
  nonempty := Nat.lt_add_of_pos_right (by decide)
  inWord := by simp [Field.single]

/-- U-type: `imm[31:12]`. -/
def rvU : Format := ⟨4, Field.single 12 20 12, .signed, by decide, by decide⟩

/-- I-type: `imm[11:0]`. -/
def rvI : Format := ⟨4, Field.single 0 12 20, .signed, by decide, by decide⟩

/-- S-type: `imm[11:5]` and `imm[4:0]`. -/
def rvS : Format where
  size := 4
  field := ⟨0, 12, [⟨5, 7, 25⟩, ⟨0, 5, 7⟩], by decide, by decide, by decide⟩
  reading := .signed
  nonempty := by decide
  inWord := by decide

/-- B-type: `imm[12]`, `imm[10:5]`, `imm[4:1]` and `imm[11]`. -/
def rvB : Format where
  size := 4
  field := ⟨1, 13, [⟨12, 1, 31⟩, ⟨5, 6, 25⟩, ⟨1, 4, 8⟩, ⟨11, 1, 7⟩], by decide, by decide, by decide⟩
  reading := .signed
  nonempty := by decide
  inWord := by decide

/-- J-type: `imm[20]`, `imm[10:1]`, `imm[11]` and `imm[19:12]`. -/
def rvJ : Format where
  size := 4
  field := ⟨1, 21, [⟨20, 1, 31⟩, ⟨1, 10, 21⟩, ⟨11, 1, 20⟩, ⟨12, 8, 12⟩], by decide, by decide,
    by decide⟩
  reading := .signed
  nonempty := by decide
  inWord := by decide

/-- I26: `offs[15:0]` and `offs[25:16]`. -/
def larchB26 : Format where
  size := 4
  field := ⟨2, 28, [⟨2, 16, 10⟩, ⟨18, 10, 0⟩], by decide, by decide, by decide⟩
  reading := .signed
  nonempty := by decide
  inWord := by decide

/-- 1RI20: `si20`. -/
def larchHi20 : Format := ⟨4, Field.single 12 20 5, .signed, by decide, by decide⟩

/-- 2RI12: `si12`. -/
def larchLo12 : Format := ⟨4, Field.single 0 12 10, .signed, by decide, by decide⟩

/-- I-form: `LI`. -/
def ppcI : Format := ⟨4, Field.single 2 24 2, .signed, by decide, by decide⟩

/-- D-form: `D`. -/
def ppcD : Format := ⟨4, Field.single 0 16 0, .signed, by decide, by decide⟩

/-- D-form of `addis`: `SI`, shifted. -/
def ppcDHi : Format := ⟨4, Field.single 16 16 0, .signed, by decide, by decide⟩

/-- DS-form: `DS`. -/
def ppcDS : Format := ⟨4, Field.single 2 14 2, .signed, by decide, by decide⟩

end Format

/-! ## What a relocation is to patch -/

/-- A word from `start` on that is to hold a value. -/
structure Slot where
  start : ℕ
  format : Format
  value : ℤ

def slotsX86 (patch target addend : ℤ) : RelocationType → Option (List Slot)
  | .x86Pc32 | .x86Plt32 | .x86GotPcRelX | .x86RexGotPcRelX =>
    some [⟨0, .signed32, wrapSigned 64 (target + addend - patch)⟩]
  | .x86Abs32S => some [⟨0, .signed32, wrapSigned 64 (target + addend)⟩]
  | .x86Abs32 => some [⟨0, .unsigned32, wrapSigned 64 (target + addend)⟩]
  | .x86Abs64 => some [⟨0, .data64, wrapSigned 64 (target + addend)⟩]
  | _ => none

def slotsAarch64 (patch target addend : ℤ) (rType : RelocationType) : Option (List Slot) :=
  match rType with
  | .aarch64Call26 | .aarch64Jump26 =>
    some [⟨0, .call26, wrapSigned 64 (target + addend - patch)⟩]
  | .aarch64AdrPrelPgHi21 =>
    -- the difference of the pages
    some [⟨0, .adrp, wrapSigned 64 ((target + addend) / 2 ^ 12 * 2 ^ 12 - patch / 2 ^ 12 * 2 ^ 12)⟩]
  | .aarch64AddAbsLo12Nc | .aarch64Ldst8AbsLo12Nc | .aarch64Ldst16AbsLo12Nc
  | .aarch64Ldst32AbsLo12Nc | .aarch64Ldst64AbsLo12Nc | .aarch64Ldst128AbsLo12Nc =>
    some [⟨0, .lo12 (lo12Shift rType), wrapUnsigned 12 (target + addend)⟩]
  | _ => none

def slotsRiscv64 (st : RelocState) (patch target addend : ℤ) :
    RiscvRelocation → Option (List Slot)
  | .call | .callPlt =>
    let v := wrapSigned 64 (target + addend - patch)
    some [⟨0, .rvU, v - wrapSigned 12 v⟩, ⟨4, .rvI, wrapSigned 12 v⟩]
  | .pcrelHi20 =>
    let v := wrapSigned 64 (target + addend - patch)
    some [⟨0, .rvU, v - wrapSigned 12 v⟩]
  | .pcrelLo12I => (st.pcrelHi.lookup target).map fun v => [⟨0, .rvI, wrapSigned 12 v⟩]
  | .pcrelLo12S => (st.pcrelHi.lookup target).map fun v => [⟨0, .rvS, wrapSigned 12 v⟩]
  | .hi20 =>
    let v := wrapSigned 64 (target + addend)
    some [⟨0, .rvU, v - wrapSigned 12 v⟩]
  | .lo12I => some [⟨0, .rvI, wrapSigned 12 (wrapSigned 64 (target + addend))⟩]
  | .lo12S => some [⟨0, .rvS, wrapSigned 12 (wrapSigned 64 (target + addend))⟩]
  | .branch => some [⟨0, .rvB, wrapSigned 64 (target + addend - patch)⟩]
  | .jal => some [⟨0, .rvJ, wrapSigned 64 (target + addend - patch)⟩]
  | .abs64 => some [⟨0, .data64, wrapSigned 64 (target + addend)⟩]
  | .abs32 => some [⟨0, .data32, wrapSigned 64 (target + addend)⟩]
  | .relax => some []
  | .unsupported => none

def slotsLoongArch64 (patch target addend : ℤ) : LoongArchRelocation → Option (List Slot)
  | .b26 => some [⟨0, .larchB26, wrapSigned 64 (target + addend - patch)⟩]
  | .pcalaHi20 =>
    -- what `pcalau12i` and its low part add to the page of the instruction
    let v := wrapSigned 64 (target + addend - patch / 2 ^ 12 * 2 ^ 12)
    some [⟨0, .larchHi20, v - wrapSigned 12 v⟩]
  | .pcalaLo12 => some [⟨0, .larchLo12, wrapSigned 12 (wrapSigned 64 (target + addend))⟩]
  | .abs64 => some [⟨0, .data64, wrapSigned 64 (target + addend)⟩]
  | .abs32 => some [⟨0, .data32, wrapSigned 64 (target + addend)⟩]
  | .relax => some []
  | .unsupported => none

def slotsPpc64 (st : RelocState) (patch target addend : ℤ) (rType : PpcRelocation) :
    Option (List Slot) :=
  let toc := st.tocBase.map fun toc => wrapSigned 64 (target + addend - toc)
  match rType with
  | .rel24 => some [⟨0, .ppcI, wrapSigned 64 (target + addend - patch)⟩]
  | .toc16Ha => toc.map fun v => [⟨0, .ppcDHi, v - wrapSigned 16 v⟩]
  | .toc16Lo => toc.map fun v => [⟨0, .ppcD, wrapSigned 16 v⟩]
  | .toc16LoDs => toc.map fun v => [⟨0, .ppcDS, wrapSigned 16 v⟩]
  | .rel32 => some [⟨0, .signed32, wrapSigned 64 (target + addend - patch)⟩]
  | .addr64 => some [⟨0, .data64, wrapSigned 64 (target + addend)⟩]
  | .addr32 => some [⟨0, .data32, wrapSigned 64 (target + addend)⟩]
  | .toc16 => toc.map fun v => [⟨0, .ppcD, v⟩]
  -- the low part of this one is not extended
  | .toc16Hi => toc.map fun v => [⟨0, .ppcDHi, v - wrapUnsigned 16 v⟩]
  | .unsupported => none

/-- The words of a relocation: none when its type is not supported, or it has no value because the
    high part of the pair or the TOC is missing. -/
def ArchRelocation.slots (r : ArchRelocation) (st : RelocState) (patch target addend : ℤ) :
    Option (List Slot) :=
  match r with
  | .x86_64 rType => slotsX86 patch target addend rType
  | .aarch64 rType => slotsAarch64 patch target addend rType
  | .riscv64 rType => slotsRiscv64 st patch target addend rType
  | .loongArch64 rType => slotsLoongArch64 patch target addend rType
  | .powerPc64 rType => slotsPpc64 st patch target addend rType
  | .other => none

/-! ## The property -/

/-- The number in `n` bytes, low byte first. -/
def wordAt (image : ℕ → UInt8) (off n : ℕ) : ℕ := leValue (slice image off n)

/-- A word holds its value, and its bits outside of the field are those of before. -/
structure Slot.Written (s : Slot) (image image' : ℕ → UInt8) (off : ℕ) : Prop where
  outside : ∀ i < 8 * s.format.size, ¬ s.format.field.Covers i →
    (wordAt image' (off + s.start) s.format.size).testBit i =
      (wordAt image (off + s.start) s.format.size).testBit i
  reads : s.format.reading.Reads s.format.field.top
    (s.format.field.decode (wordAt image' (off + s.start) s.format.size)) s.value

/-- The words of a relocation are written, and nothing else. -/
structure Patched (slots : List Slot) (m m' : ByteBuffer) (off : ℕ) : Prop where
  len : m'.len = m.len
  outside : ∀ i, (∀ s ∈ slots, i < off + s.start ∨ off + s.start + s.format.size ≤ i) →
    m'.get i = m.get i
  written : ∀ s ∈ slots, s.Written m.get m'.get off

section

variable (r : ArchRelocation) (m : ByteBuffer) (off : ℕ) (patch target addend : ℤ)
  (st : RelocState)

/-- What a relocation leaves for those after it: a high part its value, for the low parts that name
    its address. -/
structure Records (st st' : RelocState) : Prop where
  toc : st'.tocBase = st.tocBase
  pcrelHi : ∀ label, st'.pcrelHi.lookup label =
    if r = .riscv64 .pcrelHi20 ∧ label = patch then some (wrapSigned 64 (target + addend - patch))
    else st.pcrelHi.lookup label

/-- A relocation is refused with an error, or patches its words. -/
def RelocatesExactly : Prop :=
  match applyArchRelocation m off patch target addend r st with
  | .error .error => True
  | .error .panic => False
  | .ok (m', st') => ∃ slots, r.slots st patch target addend = some slots ∧
      Patched slots m m' off ∧ Records r patch target addend st st'

/-- The words of a relocation lie in the mapping. -/
def InMapping : Prop :=
  ∀ slots, r.slots st patch target addend = some slots →
    ∀ s ∈ slots, off + s.start + s.format.size ≤ m.len

/-- A direct branch that goes through a veneer. -/
def ThroughVeneer : Prop :=
  match r with
  | .x86_64 rType => isBranchType .x86_64 rType ∧ isBranchInsn .x86_64 m.get off ∧
      ¬ fitsI32 (wrapSigned 64 (target + addend - patch))
  | .aarch64 rType => isBranchType .aarch64 rType ∧
      ¬ (-call26Max ≤ wrapSigned 64 (target + addend - patch) ∧
        wrapSigned 64 (target + addend - patch) ≤ call26Max)
  | _ => False

/-- The labels of a relocation are aligned as its instructions require. -/
def LabelsAligned : Prop :=
  ∀ slots, r.slots st patch target addend = some slots →
    ∀ s ∈ slots, (2 : ℤ) ^ s.format.field.lo ∣ s.value

/-! ## The condition -/

/-- Only the relocations of x86-64 check that the value fits its field. -/
def ArchRelocation.ChecksRange : ArchRelocation → Prop
  | .x86_64 _ => True
  | _ => False

/-- Every field of the relocation represents its value. -/
def FieldsFit : Prop :=
  ∀ slots, r.slots st patch target addend = some slots →
    ∀ s ∈ slots, s.format.field.Represents s.format.reading s.value

end

end Svod.Runtime.JitLoader
