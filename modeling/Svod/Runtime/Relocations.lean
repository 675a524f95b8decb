/-
  Svod.Runtime.Relocations

  The relocations of the JIT ELF loader (`runtime/src/jit_loader.rs`) on
  riscv64, loongarch64 and ppc64, and of all five architectures together.

  As on the other two architectures, arithmetic on `i64` wraps around, and a
  shift to the right is a division that rounds down.
-/

import Svod.Runtime.JitLoader

namespace Svod.Runtime.JitLoader

open Svod.Lib

/-! ## Types -/

inductive RiscvRelocation where
  | call | callPlt | pcrelHi20 | pcrelLo12I | pcrelLo12S | hi20 | lo12I | lo12S
  | branch | jal | abs64 | abs32 | relax
  | unsupported
deriving DecidableEq, Repr

inductive LoongArchRelocation where
  | b26 | pcalaHi20 | pcalaLo12 | abs64 | abs32 | relax
  | unsupported
deriving DecidableEq, Repr

inductive PpcRelocation where
  | rel24 | toc16Ha | toc16Lo | toc16LoDs | rel32 | addr64 | addr32 | toc16 | toc16Hi
  | unsupported
deriving DecidableEq, Repr

/-- An architecture and a relocation type of it. -/
inductive ArchRelocation where
  | x86_64 (rType : RelocationType)
  | aarch64 (rType : RelocationType)
  | riscv64 (rType : RiscvRelocation)
  | loongArch64 (rType : LoongArchRelocation)
  | powerPc64 (rType : PpcRelocation)
  /-- Another architecture. -/
  | other
deriving DecidableEq, Repr

structure RelocState where
  /-- The values of the high parts relative to their place, by the address of the instruction. -/
  pcrelHi : List (ℤ × ℤ)
  /-- The address of the symbol `.TOC.`. -/
  tocBase : Option ℤ
  veneers : VeneerPool

/-- `v as u32`. -/
def asU32 (v : ℤ) : ℕ := (wrapUnsigned 32 v).toNat

/-! ## RISC-V -/

/-- `RV_U_MASK`: `rd` and the opcode. -/
def rvUMask : ℕ := 0x00000FFF

/-- `RV_I_MASK`: `rs1`, `f3`, `rd` and the opcode. -/
def rvIMask : ℕ := 0x000FFFFF

/-- `RV_S_MASK`: `rs2`, `rs1`, `f3` and the opcode. -/
def rvSMask : ℕ := 0x01FFF07F

/-- The immediate of a store. -/
def rvSBits (lo : ℕ) : ℕ := (lo >>> 5) <<< 25 ||| (lo &&& 0x1F) <<< 7

/-- The immediate of a conditional branch. -/
def rvBBits (v : ℕ) : ℕ :=
  ((v >>> 12) &&& 1) <<< 31 ||| ((v >>> 5) &&& 0x3F) <<< 25 ||| ((v >>> 1) &&& 0xF) <<< 8 |||
    ((v >>> 11) &&& 1) <<< 7

/-- The immediate of `jal`. -/
def rvJBits (v : ℕ) : ℕ :=
  ((v >>> 20) &&& 1) <<< 31 ||| ((v >>> 1) &&& 0x3FF) <<< 21 ||| ((v >>> 11) &&& 1) <<< 20 |||
    ((v >>> 12) &&& 0xFF) <<< 12

/-- The immediate of `auipc`: the high part of a value, rounded for a signed low part. -/
def rvHiBits (v : ℤ) : ℕ := asU32 (wrapSigned 64 (v + 0x800) / 2 ^ 12) <<< 12 % 2 ^ 32

/-- `reloc_riscv64`. -/
def relocRiscv64 (m : ByteBuffer) (off : ℕ) (patch target addend : ℤ) (rType : RiscvRelocation)
    (st : RelocState) : Except Fault (ByteBuffer × RelocState) :=
  match rType with
  | .call | .callPlt => do
    let v := wrapSigned 64 (target + addend - patch)
    let m ← patchInsn m off rvUMask (rvHiBits v)
    let m ← patchInsn m (off + 4) rvIMask ((asU32 v &&& 0xFFF) <<< 20)
    .ok (m, st)
  | .pcrelHi20 => do
    let v := wrapSigned 64 (target + addend - patch)
    let m ← patchInsn m off rvUMask (rvHiBits v)
    .ok (m, { st with pcrelHi := (patch, v) :: st.pcrelHi })
  | .pcrelLo12I => do
    let full ← orError (st.pcrelHi.lookup target)
    let m ← patchInsn m off rvIMask ((asU32 full &&& 0xFFF) <<< 20)
    .ok (m, st)
  | .pcrelLo12S => do
    let full ← orError (st.pcrelHi.lookup target)
    let m ← patchInsn m off rvSMask (rvSBits (asU32 full &&& 0xFFF))
    .ok (m, st)
  | .hi20 => do
    let v := asU32 (wrapSigned 64 (target + addend))
    let m ← patchInsn m off rvUMask ((v + 0x800) % 2 ^ 32 &&& 0xFFFFF000)
    .ok (m, st)
  | .lo12I => do
    let lo := asU32 (wrapSigned 64 (target + addend)) &&& 0xFFF
    let m ← patchInsn m off rvIMask (lo <<< 20)
    .ok (m, st)
  | .lo12S => do
    let lo := asU32 (wrapSigned 64 (target + addend)) &&& 0xFFF
    let m ← patchInsn m off rvSMask (rvSBits lo)
    .ok (m, st)
  | .branch => do
    let m ← patchInsn m off rvSMask (rvBBits (asU32 (wrapSigned 64 (target + addend - patch))))
    .ok (m, st)
  | .jal => do
    let m ← patchInsn m off rvUMask (rvJBits (asU32 (wrapSigned 64 (target + addend - patch))))
    .ok (m, st)
  | .abs64 => do
    let m ← orPanic (m.write off (toLeBytes 8 (wrapSigned 64 (target + addend))))
    .ok (m, st)
  | .abs32 => do
    let m ← orPanic (m.write off (toLeBytes 4 (wrapSigned 64 (target + addend))))
    .ok (m, st)
  | .relax => .ok (m, st)
  | .unsupported => .error .error

/-! ## LoongArch -/

/-- The offset of `b` and `bl`, in instructions. -/
def larchB26Bits (offs : ℕ) : ℕ := (offs &&& 0xFFFF) <<< 10 ||| ((offs >>> 16) &&& 0x3FF)

/-- The difference of two pages, the first rounded for a signed low part. -/
def larchPageDelta (patch dest : ℤ) : ℤ :=
  wrapSigned 64 (wrapSigned 64 (dest + 0x800) / 2 ^ 12 - wrapSigned 64 patch / 2 ^ 12)

/-- `reloc_loongarch64`. -/
def relocLoongArch64 (m : ByteBuffer) (off : ℕ) (patch target addend : ℤ) :
    LoongArchRelocation → Except Fault ByteBuffer
  | .b26 =>
    patchInsn m off 0xFC000000 (larchB26Bits (asU32 (wrapSigned 64 (target + addend - patch) / 4)))
  | .pcalaHi20 =>
    patchInsn m off 0xFE00001F ((asU32 (larchPageDelta patch (target + addend)) &&& 0xFFFFF) <<< 5)
  | .pcalaLo12 =>
    patchInsn m off 0xFFC003FF ((asU32 (wrapSigned 64 (target + addend)) &&& 0xFFF) <<< 10)
  | .abs64 => orPanic (m.write off (toLeBytes 8 (wrapSigned 64 (target + addend))))
  | .abs32 => orPanic (m.write off (toLeBytes 4 (wrapSigned 64 (target + addend))))
  | .relax => .ok m
  | .unsupported => .error .error

/-! ## PPC64 -/

/-- The value of a relocation relative to the TOC. -/
def RelocState.tocValue (st : RelocState) (target addend : ℤ) : Except Fault ℤ := do
  let toc ← orError st.tocBase
  .ok (wrapSigned 64 (target + addend - toc))

/-- The high half, rounded for a signed low half. -/
def ppcHaBits (v : ℤ) : ℕ := (asU32 (v / 2 ^ 16) + ((asU32 v >>> 15) &&& 1)) % 2 ^ 32 &&& 0xFFFF

/-- `reloc_ppc64`. -/
def relocPpc64 (m : ByteBuffer) (off : ℕ) (patch target addend : ℤ) (rType : PpcRelocation)
    (st : RelocState) : Except Fault ByteBuffer :=
  match rType with
  | .rel24 =>
    let li := asU32 (wrapSigned 64 (target + addend - patch) / 4) &&& 0x00FFFFFF
    patchInsn m off 0xFC000003 (li <<< 2)
  | .toc16Ha => do
    let v ← st.tocValue target addend
    patchInsn m off 0xFFFF0000 (ppcHaBits v)
  | .toc16Lo => do
    let v ← st.tocValue target addend
    patchInsn m off 0xFFFF0000 (asU32 v &&& 0xFFFF)
  | .toc16LoDs => do
    let v ← st.tocValue target addend
    patchInsn m off 0xFFFF0003 (asU32 v &&& 0xFFFC)
  | .rel32 => orPanic (m.write off (toLeBytes 4 (wrapSigned 64 (target + addend - patch))))
  | .addr64 => orPanic (m.write off (toLeBytes 8 (wrapSigned 64 (target + addend))))
  | .addr32 => orPanic (m.write off (toLeBytes 4 (wrapSigned 64 (target + addend))))
  | .toc16 => do
    let v ← st.tocValue target addend
    patchInsn m off 0xFFFF0000 (asU32 v &&& 0xFFFF)
  | .toc16Hi => do
    let v ← st.tocValue target addend
    patchInsn m off 0xFFFF0000 (asU32 (v / 2 ^ 16) &&& 0xFFFF)
  | .unsupported => .error .error

/-! ## All architectures -/

/-- `apply_relocation`. -/
def applyArchRelocation (m : ByteBuffer) (off : ℕ) (patch target addend : ℤ)
    (r : ArchRelocation) (st : RelocState) : Except Fault (ByteBuffer × RelocState) :=
  match r with
  | .x86_64 rType => do
    let (m, p) ← relocX86_64 m off patch target addend rType st.veneers
    .ok (m, { st with veneers := p })
  | .aarch64 rType => do
    let (m, p) ← relocAarch64 m off patch target addend rType st.veneers
    .ok (m, { st with veneers := p })
  | .riscv64 rType => relocRiscv64 m off patch target addend rType st
  | .loongArch64 rType => do
    let m ← relocLoongArch64 m off patch target addend rType
    .ok (m, st)
  | .powerPc64 rType => do
    let m ← relocPpc64 m off patch target addend rType st
    .ok (m, st)
  | .other => .error .error

end Svod.Runtime.JitLoader
