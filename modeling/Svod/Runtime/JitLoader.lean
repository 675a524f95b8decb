/-
  Svod.Runtime.JitLoader

  The JIT ELF loader (`runtime/src/jit_loader.rs`) on x86-64 and aarch64.

  The loadable sections are laid out one after the other, slots for branch
  veneers follow them, and the relocations are applied in order.  A direct
  branch that does not reach its destination is sent through a veneer, a
  trampoline that holds the destination.

  A fault is an error that is returned or a panic: a slice of the mapping that
  leaves it panics.  Arithmetic on `i64` wraps around.  What the dynamic linker
  answers to a name is a parameter.
-/

import Svod.Lib.ByteBuffer
import Svod.Lib.Checked
import Svod.Lib.MachineInt

namespace Svod.Runtime.JitLoader

open Svod.Lib

/-! ## Objects -/

/-- The architectures with a loader. -/
inductive Arch where
  | x86_64 | aarch64
deriving DecidableEq, Repr

/-- Relocation types of the two architectures; the others are not supported. -/
inductive RelocationType where
  | x86Pc32 | x86Plt32 | x86GotPcRelX | x86RexGotPcRelX | x86Abs32S | x86Abs32 | x86Abs64
  | aarch64Call26 | aarch64Jump26 | aarch64AdrPrelPgHi21 | aarch64AddAbsLo12Nc
  | aarch64Ldst8AbsLo12Nc | aarch64Ldst16AbsLo12Nc | aarch64Ldst32AbsLo12Nc
  | aarch64Ldst64AbsLo12Nc | aarch64Ldst128AbsLo12Nc
  | unsupported
deriving DecidableEq, Repr

/-- What a relocation refers to. -/
inductive RelocationTarget where
  | symbol (index : ℕ)
  | section (index : ℕ)
  | other
deriving DecidableEq, Repr

/-- A place to patch, and the address to patch it with. -/
structure Relocation where
  offset : ℕ
  target : RelocationTarget
  addend : ℤ
  /-- The type of an ELF relocation; none for another format. -/
  flags : Option RelocationType
deriving DecidableEq, Repr

/-- A section of the object with its relocations. -/
structure Section where
  index : ℕ
  /-- Text, data or read-only data. -/
  loadable : Bool
  align : ℕ
  size : ℕ
  data : List UInt8
  relocations : List Relocation

/-- A symbol, defined in a section or resolved outside. -/
structure Symbol where
  index : ℕ
  /-- None when the name is no string. -/
  name : Option String
  sectionIndex : Option ℕ
  address : ℤ

structure ObjectFile where
  sections : List Section
  symbols : List Symbol

/-- An error returned, or an abort. -/
inductive Fault where
  | error
  | panic
deriving DecidableEq, Repr

/-- What a slice outside of the mapping does. -/
def orPanic {α : Type} : Option α → Except Fault α
  | some a => .ok a
  | none => .error .panic

/-- What a missing value does where the source returns an error. -/
def orError {α : Type} : Option α → Except Fault α
  | some a => .ok a
  | none => .error .error

/-! ## Layout -/

/-- Offsets of the sections placed so far, and the size of what is laid out. -/
structure Layout where
  offsets : List (ℕ × ℕ)
  total : ℕ

/-- `(total_size + align - 1) & !(align - 1)`. -/
def alignUp (total align : ℕ) : ℕ :=
  total + align - 1 - ((total + align - 1) &&& (align - 1))

/-- A loadable section goes to the next multiple of its alignment. -/
def Layout.place (l : Layout) (s : Section) : Layout :=
  if s.loadable then
    let offset := alignUp l.total (max s.align 1)
    ⟨l.offsets ++ [(s.index, offset)], offset + s.size⟩
  else l

/-- The sections one after the other, each aligned. -/
def layout (sections : List Section) : Layout := sections.foldl Layout.place ⟨[], 0⟩

/-- `section_offsets.get`. -/
def Layout.offsetOf (l : Layout) (index : ℕ) : Option ℕ := l.offsets.lookup index

/-! ## Symbols -/

section

variable (base : ℤ) (resolve : String → Option ℤ) (l : Layout)

/-- The offset of the section of a symbol, when it is loaded. -/
def Symbol.sectionOffset (s : Symbol) : Option ℕ := s.sectionIndex.bind l.offsetOf

/-- The address of a symbol: its place in the mapping, or what the dynamic linker answers. -/
def symbolAddr (obj : ObjectFile) (index : ℕ) : Except Fault ℤ := do
  let s ← orError (obj.symbols.find? fun s => s.index = index)
  match s.sectionOffset l with
  | some offset => .ok (base + offset + s.address)
  | none => do
    let name ← orError s.name
    orError (resolve name)

/-- The address that a relocation refers to. -/
def targetAddr (obj : ObjectFile) : RelocationTarget → Except Fault ℤ
  | .symbol index => symbolAddr base resolve l obj index
  | .section index => do
    let offset ← orError (l.offsetOf index)
    .ok (base + offset)
  | .other => .error .error

end

/-- Relocations that are direct branches by their type. -/
def isBranchType : Arch → RelocationType → Bool
  | .aarch64, r => r = .aarch64Call26 ∨ r = .aarch64Jump26
  | .x86_64, r => r = .x86Pc32 ∨ r = .x86Plt32

/-- The symbol of a branch relocation, when it lies outside of the mapping. -/
def externalBranchTarget (arch : Arch) (obj : ObjectFile) (l : Layout) (r : Relocation) :
    Option ℕ :=
  match r.flags, r.target with
  | some rType, .symbol index =>
    if isBranchType arch rType then
      match obj.symbols.find? fun s => s.index = index with
      | some s => if s.sectionOffset l = none then some index else none
      | none => none
    else none
  | _, _ => none

/-- `count_external_branch_targets`. -/
def countExternalBranchTargets (arch : Arch) (obj : ObjectFile) (l : Layout) : ℕ :=
  ((obj.sections.filter (·.loadable)).flatMap fun s =>
    s.relocations.filterMap (externalBranchTarget arch obj l)).dedup.length

/-! ## Veneers -/

def veneerSize : ℕ := 16

def veneerAlign : ℕ := 16

/-- `CALL26_MAX`. -/
def call26Max : ℤ := 2 ^ 27 - 4

/-- The veneers emitted so far, and where the next one goes. -/
structure VeneerPool where
  next : ℕ
  /-- Offsets of the veneers by destination. -/
  map : List (ℤ × ℕ)

/-- No veneer yet. -/
def VeneerPool.new (base : ℕ) : VeneerPool := ⟨base, []⟩

/-- `reserve`: the slot of a destination, and whether it is fresh. -/
def VeneerPool.reserve (p : VeneerPool) (dest : ℤ) : VeneerPool × ℕ × Bool :=
  match p.map.lookup dest with
  | some off => (p, off, false)
  | none => (⟨p.next + veneerSize, p.map ++ [(dest, p.next)]⟩, p.next, true)

/-- `get_or_create`: `LDR X16, [PC, #8]`, `BR X16` and the destination. -/
def VeneerPool.getOrCreate (p : VeneerPool) (m : ByteBuffer) (dest : ℤ) :
    Except Fault (ByteBuffer × VeneerPool × ℕ) := do
  let (p', off, fresh) := p.reserve dest
  if fresh then do
    let m ← orPanic (m.write off (leBytes 4 0x58000050))
    let m ← orPanic (m.write (off + 4) (leBytes 4 0xD61F0200))
    let m ← orPanic (m.write (off + 8) (leBytes 8 dest.toNat))
    .ok (m, p', off)
  else .ok (m, p', off)

/-- `get_or_create_x86_64`: `MOVABS $dest, %r11` and `JMP *%r11`. -/
def VeneerPool.getOrCreateX86 (p : VeneerPool) (m : ByteBuffer) (dest : ℤ) :
    Except Fault (ByteBuffer × VeneerPool × ℕ) := do
  let (p', off, fresh) := p.reserve dest
  if fresh then do
    let m ← orPanic (m.write off [0x49, 0xBB])
    let m ← orPanic (m.write (off + 2) (leBytes 8 dest.toNat))
    let m ← orPanic (m.write (off + 10) [0x41, 0xFF, 0xE3])
    .ok (m, p', off)
  else .ok (m, p', off)

/-! ## Relocations -/

/-- The range of an `i32`. -/
def fitsI32 (v : ℤ) : Prop := -2 ^ 31 ≤ v ∧ v < 2 ^ 31

/-- The range of a `u32`. -/
def fitsU32 (v : ℤ) : Prop := 0 ≤ v ∧ v < 2 ^ 32

instance (v : ℤ) : Decidable (fitsI32 v) := inferInstanceAs (Decidable (_ ∧ _))

instance (v : ℤ) : Decidable (fitsU32 v) := inferInstanceAs (Decidable (_ ∧ _))

/-- `to_le_bytes` of a number of `n` bytes. -/
def toLeBytes (n : ℕ) (v : ℤ) : List UInt8 := leBytes n (wrapUnsigned (8 * n) v).toNat

/-- `patch_insn`. -/
def patchInsn (m : ByteBuffer) (off mask bits : ℕ) : Except Fault ByteBuffer := do
  let insn ← orPanic (m.read off 4)
  orPanic (m.write off (leBytes 4 ((leValue insn &&& mask) ||| bits)))

/-- Whether a relocation is that of a `call` or a `jmp`: the byte before the field is the opcode. -/
def isDirectBranch (m : ByteBuffer) (off : ℕ) (rType : RelocationType) : Except Fault Bool :=
  if (rType = .x86Pc32 ∨ rType = .x86Plt32) ∧ off ≠ 0 then do
    let opcode ← orPanic (m.read (off - 1) 1)
    .ok (opcode = [0xE8] ∨ opcode = [0xE9])
  else .ok false

/-- A field of 32 bits relative to its own place. -/
def relocPc32 (m : ByteBuffer) (off : ℕ) (patch target addend : ℤ) (rType : RelocationType)
    (p : VeneerPool) : Except Fault (ByteBuffer × VeneerPool) := do
  let displacement := wrapSigned 64 (target + addend - patch)
  if fitsI32 displacement then do
    let m ← orPanic (m.write off (toLeBytes 4 displacement))
    .ok (m, p)
  else do
    let branch ← isDirectBranch m off rType
    if branch then do
      -- `call` and `jmp` go on from the end of the field
      let (m, p, veneerOff) ← p.getOrCreateX86 m (wrapUnsigned 64 (target + addend + 4))
      let hop := wrapSigned 64 (patch - off + veneerOff - 4 - patch)
      if fitsI32 hop then do
        let m ← orPanic (m.write off (toLeBytes 4 hop))
        .ok (m, p)
      else .error .error
    else .error .error

/-- `reloc_x86_64`. -/
def relocX86_64 (m : ByteBuffer) (off : ℕ) (patch target addend : ℤ) (rType : RelocationType)
    (p : VeneerPool) : Except Fault (ByteBuffer × VeneerPool) :=
  match rType with
  | .x86Pc32 | .x86Plt32 | .x86GotPcRelX | .x86RexGotPcRelX =>
    relocPc32 m off patch target addend rType p
  | .x86Abs32S => do
    let value := wrapSigned 64 (target + addend)
    if fitsI32 value then do
      let m ← orPanic (m.write off (toLeBytes 4 value))
      .ok (m, p)
    else .error .error
  | .x86Abs32 => do
    let value := wrapSigned 64 (target + addend)
    if fitsU32 value then do
      let m ← orPanic (m.write off (toLeBytes 4 value))
      .ok (m, p)
    else .error .error
  | .x86Abs64 => do
    let m ← orPanic (m.write off (toLeBytes 8 (target + addend)))
    .ok (m, p)
  | _ => .error .error

/-- The displacement of a branch to a destination, or to its veneer where that is out of reach. -/
def call26Offset (m : ByteBuffer) (off : ℕ) (patch dest : ℤ) (p : VeneerPool) :
    Except Fault (ByteBuffer × VeneerPool × ℤ) :=
  let offset := wrapSigned 64 (dest - patch)
  if -call26Max ≤ offset ∧ offset ≤ call26Max then .ok (m, p, offset)
  else do
    let (m, p, veneerOff) ← p.getOrCreate m (wrapUnsigned 64 dest)
    .ok (m, p, wrapSigned 64 (patch - off + veneerOff - patch))

/-- A branch with a field of 26 bits that counts instructions. -/
def relocCall26 (m : ByteBuffer) (off : ℕ) (patch target addend : ℤ) (p : VeneerPool) :
    Except Fault (ByteBuffer × VeneerPool) := do
  let dest := wrapSigned 64 (target + addend)
  let (m, p, finalOffset) ← call26Offset m off patch dest p
  let imm26 := (wrapUnsigned 26 (finalOffset / 4)).toNat
  let m ← patchInsn m off 0xFC000000 imm26
  .ok (m, p)

/-- The scale of a low twelve-bit offset, as a shift. -/
def lo12Shift : RelocationType → ℕ
  | .aarch64Ldst16AbsLo12Nc => 1
  | .aarch64Ldst32AbsLo12Nc => 2
  | .aarch64Ldst64AbsLo12Nc => 3
  | .aarch64Ldst128AbsLo12Nc => 4
  | _ => 0

/-- The two fields of an `ADRP` of the page of a destination. -/
def adrpBits (patch dest : ℤ) : ℕ :=
  let pageDelta := wrapSigned 64 (wrapSigned 64 dest / 4096 * 4096 - wrapSigned 64 patch / 4096 * 4096)
  let imm := (wrapUnsigned 32 (pageDelta / 4096)).toNat
  (imm % 4) <<< 29 ||| (imm / 4 % 2 ^ 19) <<< 5

/-- `reloc_aarch64`. -/
def relocAarch64 (m : ByteBuffer) (off : ℕ) (patch target addend : ℤ) (rType : RelocationType)
    (p : VeneerPool) : Except Fault (ByteBuffer × VeneerPool) :=
  match rType with
  | .aarch64Call26 | .aarch64Jump26 => relocCall26 m off patch target addend p
  | .aarch64AdrPrelPgHi21 => do
    let m ← patchInsn m off 0x9F00001F (adrpBits patch (target + addend))
    .ok (m, p)
  | .aarch64AddAbsLo12Nc | .aarch64Ldst8AbsLo12Nc | .aarch64Ldst16AbsLo12Nc
  | .aarch64Ldst32AbsLo12Nc | .aarch64Ldst64AbsLo12Nc | .aarch64Ldst128AbsLo12Nc => do
    let imm12 := (wrapUnsigned 12 (target + addend)).toNat >>> lo12Shift rType
    let m ← patchInsn m off 0xFFC003FF (imm12 <<< 10)
    .ok (m, p)
  | _ => .error .error

/-- `apply_relocation`. -/
def applyRelocation (arch : Arch) (m : ByteBuffer) (off : ℕ) (patch target addend : ℤ)
    (rType : RelocationType) (p : VeneerPool) : Except Fault (ByteBuffer × VeneerPool) :=
  match arch with
  | .x86_64 => relocX86_64 m off patch target addend rType p
  | .aarch64 => relocAarch64 m off patch target addend rType p

/-! ## Loading -/

section

variable (arch : Arch) (base : ℤ) (resolve : String → Option ℤ) (obj : ObjectFile)

/-- Where the veneers begin. -/
def veneerBase : ℕ := Checked.ceilTo (layout obj.sections).total veneerAlign

/-- The number of slots for veneers. -/
def veneerSlots : ℕ := countExternalBranchTargets arch obj (layout obj.sections)

/-- The length of the mapping. -/
def mappingLen : ℕ := veneerBase obj + veneerSlots arch obj * veneerSize

/-- A section copied to its place, when it has one. -/
def copySection (l : Layout) (m : ByteBuffer) (s : Section) : Except Fault ByteBuffer :=
  match l.offsetOf s.index with
  | some offset => orPanic (m.write offset s.data)
  | none => .ok m

/-- The sections copied to their places. -/
def populate (l : Layout) (m : ByteBuffer) : List Section → Except Fault ByteBuffer
  | [] => .ok m
  | s :: rest => do
    let m ← copySection l m s
    populate l m rest

/-- The mapping before relocation. -/
def loaded : Except Fault ByteBuffer :=
  populate (layout obj.sections) (.zeroed (mappingLen arch obj)) obj.sections

/-- A relocation and its place in the mapping. -/
structure Site where
  off : ℕ
  reloc : Relocation

/-- The relocations of a section. -/
def sectionSites (l : Layout) (s : Section) : List Site :=
  if s.loadable then
    match l.offsetOf s.index with
    | some offset => s.relocations.map fun r => ⟨offset + r.offset, r⟩
    | none => []
  else []

/-- The relocations in the order they are applied. -/
def sites : List Site := obj.sections.flatMap (sectionSites (layout obj.sections))

/-- One relocation, patched. -/
def applySite (m : ByteBuffer) (p : VeneerPool) (s : Site) :
    Except Fault (ByteBuffer × VeneerPool) := do
  let target ← targetAddr base resolve (layout obj.sections) obj s.reloc.target
  let rType ← orError s.reloc.flags
  applyRelocation arch m s.off (base + s.off) target s.reloc.addend rType p

/-- The relocations in order, up to the first fault. -/
def applySites (m : ByteBuffer) (p : VeneerPool) :
    List Site → Except Fault (ByteBuffer × VeneerPool)
  | [] => .ok (m, p)
  | s :: rest => do
    let (m, p) ← applySite arch base resolve obj m p s
    applySites m p rest

/-- The mapping with every relocation applied, and the veneers in it. -/
def relocated : Except Fault (ByteBuffer × VeneerPool) :=
  if (layout obj.sections).total = 0 then .error .error
  else do
    let m ← loaded arch obj
    applySites arch base resolve obj m (.new (veneerBase obj)) (sites obj)

/-- `find_symbol_offset`. -/
def findSymbolOffset (name : String) : Except Fault ℤ :=
  orError (obj.symbols.findSome? fun s =>
    if s.name.getD "" = name ∨ s.name.getD "" = "_" ++ name then
      (s.sectionOffset (layout obj.sections)).map fun offset => offset + s.address
    else none)

/-- `jit_load`: the address of the kernel and the mapping. -/
def jitLoad (name : String) : Except Fault (ℤ × ByteBuffer) := do
  let (m, _) ← relocated arch base resolve obj
  let offset ← findSymbolOffset obj name
  .ok (base + offset, m)

end

end Svod.Runtime.JitLoader
