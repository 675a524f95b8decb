/-
  Svod.Runtime.JitLoaderSpec

  What it means that direct branches land on their targets, and the demand for
  veneers of an object.

  The plan of an object runs over its relocations as the loader does, with
  veneers for as many destinations as it takes.
-/

import Svod.Runtime.JitLoader

namespace Svod.Runtime.JitLoader

open Svod.Lib

/-! ## Instructions -/

/-- The instruction word at an offset. -/
def insnAt (image : ℕ → UInt8) (off : ℕ) : ℕ := leValue (slice image off 4)

/-- Where the instruction with a branch field begins. -/
def insnStart : Arch → ℕ → ℕ
  | .x86_64, off => off - 1
  | .aarch64, off => off

/-- Whether a field is that of a direct branch: `call` and `jmp`, or `B` and `BL`. -/
def isBranchInsn : Arch → (ℕ → UInt8) → ℕ → Prop
  | .x86_64, image, off => off ≠ 0 ∧ (image (off - 1) = 0xE8 ∨ image (off - 1) = 0xE9)
  | .aarch64, image, off => insnAt image off / 2 ^ 26 = 5 ∨ insnAt image off / 2 ^ 26 = 37

instance (arch : Arch) (image : ℕ → UInt8) (off : ℕ) : Decidable (isBranchInsn arch image off) :=
  match arch with
  | .x86_64 => inferInstanceAs (Decidable (_ ∧ _))
  | .aarch64 => inferInstanceAs (Decidable (_ ∨ _))

/-- Where a direct branch goes. -/
def branchTarget (arch : Arch) (base : ℤ) (image : ℕ → UInt8) (off : ℕ) : Option ℤ :=
  if isBranchInsn arch image off then
    match arch with
    | .x86_64 => some (wrapUnsigned 64 (base + off + 4 + wrapSigned 32 (insnAt image off)))
    | .aarch64 => some (wrapUnsigned 64 (base + off + 4 * wrapSigned 26 (insnAt image off)))
  else none

/-- The address that a veneer holds. -/
def veneerDest (arch : Arch) (image : ℕ → UInt8) (off : ℕ) : Option ℤ :=
  match arch with
  | .x86_64 =>
    if slice image off 2 = [0x49, 0xBB] ∧ slice image (off + 10) 3 = [0x41, 0xFF, 0xE3] then
      some (leValue (slice image (off + 2) 8))
    else none
  | .aarch64 =>
    if slice image off 4 = leBytes 4 0x58000050 ∧ slice image (off + 4) 4 = leBytes 4 0xD61F0200 then
      some (leValue (slice image (off + 8) 8))
    else none

/-! ## Well-formed objects -/

/-- The bytes that a relocation overwrites. -/
def Relocation.width (r : Relocation) : ℕ :=
  match r.flags with
  | some .x86Abs64 => 8
  | some .unsupported | none => 0
  | some _ => 4

def Section.image (s : Section) (i : ℕ) : UInt8 := s.data.getD i 0

/-- A relocation of a direct branch. -/
def Relocation.IsBranch (arch : Arch) (s : Section) (r : Relocation) : Prop :=
  (∃ rType, r.flags = some rType ∧ isBranchType arch rType) ∧ isBranchInsn arch s.image r.offset

/-- A relocation leaves the instruction of a branch alone. -/
def Relocation.Spares (arch : Arch) (s : Section) (r' r : Relocation) : Prop :=
  r.IsBranch arch s →
    r'.offset + r'.width ≤ insnStart arch r.offset ∨ r.offset + 4 ≤ r'.offset

structure ObjectFile.WellFormed (arch : Arch) (obj : ObjectFile) : Prop where
  size : ∀ s ∈ obj.sections, s.loadable → s.data.length = s.size
  index : (obj.sections.map (·.index)).Nodup
  /-- Relocations lie in their sections. -/
  field : ∀ s ∈ obj.sections, s.loadable → ∀ r ∈ s.relocations, r.offset + r.width ≤ s.size
  /-- The instruction of a branch has one relocation. -/
  apart : ∀ s ∈ obj.sections, s.loadable →
    s.relocations.Pairwise fun r r' => r'.Spares arch s r ∧ r.Spares arch s r'

/-- The mapping lies in the address space; a slice has fewer than `2^63` bytes. -/
structure MappingFits (arch : Arch) (base : ℤ) (obj : ObjectFile) : Prop where
  nonneg : 0 ≤ base
  stop : base + mappingLen arch obj ≤ 2 ^ 64
  len : mappingLen arch obj < 2 ^ 63

/-! ## The property -/

section

variable (arch : Arch) (base : ℤ) (resolve : String → Option ℤ) (obj : ObjectFile)

/-- `S + A` on aarch64 and `S + A + 4` on x86-64. -/
def branchDest (target addend : ℤ) : ℤ :=
  match arch with
  | .x86_64 => wrapUnsigned 64 (target + addend + 4)
  | .aarch64 => wrapUnsigned 64 (target + addend)

def VeneerPool.offsets (p : VeneerPool) : List ℕ := p.map.map (·.2)

/-- A branch goes to a destination, directly or through a veneer that holds it. -/
def Lands (m : ByteBuffer) (p : VeneerPool) (off : ℕ) (dest : ℤ) : Prop :=
  branchTarget arch base m.get off = some dest ∨
    ∃ v ∈ p.offsets, branchTarget arch base m.get off = some (wrapUnsigned 64 (base + v)) ∧
      veneerDest arch m.get v = some dest

/-- Veneers overlap neither each other nor a section, and lie in the mapping. -/
structure VeneersApart (m : ByteBuffer) (p : VeneerPool) : Prop where
  disjoint : p.offsets.Pairwise fun v w => v + veneerSize ≤ w ∨ w + veneerSize ≤ v
  sections : ∀ v ∈ p.offsets, ∀ s ∈ obj.sections, s.loadable →
    ∀ off, (layout obj.sections).offsetOf s.index = some off → off + s.size ≤ v
  inside : ∀ v ∈ p.offsets, v + veneerSize ≤ m.len

structure LoadsSafely : Prop where
  noPanic : ∀ name, jitLoad arch base resolve obj name ≠ .error .panic
  lands : ∀ m p, relocated arch base resolve obj = .ok (m, p) →
    ∀ s ∈ obj.sections, s.loadable → ∀ off, (layout obj.sections).offsetOf s.index = some off →
      ∀ r ∈ s.relocations, r.IsBranch arch s →
        ∃ target, targetAddr base resolve (layout obj.sections) obj r.target = .ok target ∧
          Lands arch base m p (off + r.offset) (branchDest arch target r.addend)
  apart : ∀ m p, relocated arch base resolve obj = .ok (m, p) → VeneersApart obj m p

/-! ## What a relocation asks for -/

inductive Request where
  /-- The bytes of the field. -/
  | patch (bytes : List UInt8)
  /-- A branch to the veneer of a destination. -/
  | veneer (dest : ℤ)
  | refused

/-- An instruction with the bits of a field replaced. -/
def insnBytes (image : ℕ → UInt8) (off mask bits : ℕ) : List UInt8 :=
  leBytes 4 ((insnAt image off &&& mask) ||| bits)

/-- An instruction with a displacement in its field of 26 bits. -/
def call26Bytes (image : ℕ → UInt8) (off : ℕ) (displacement : ℤ) : List UInt8 :=
  insnBytes image off 0xFC000000 (wrapUnsigned 26 (displacement / 4)).toNat

/-- The bytes of a branch to a veneer, when it is within reach. -/
def hopBytes (image : ℕ → UInt8) (off veneerOff : ℕ) : Option (List UInt8) :=
  match arch with
  | .x86_64 =>
    if fitsI32 (wrapSigned 64 (veneerOff - 4 - off)) then
      some (toLeBytes 4 (wrapSigned 64 (veneerOff - 4 - off)))
    else none
  | .aarch64 => some (call26Bytes image off (wrapSigned 64 (veneerOff - off)))

def requestX86 (image : ℕ → UInt8) (off : ℕ) (patch target addend : ℤ) (rType : RelocationType) :
    Request :=
  let value := wrapSigned 64 (target + addend)
  match rType with
  | .x86Pc32 | .x86Plt32 | .x86GotPcRelX | .x86RexGotPcRelX =>
    if fitsI32 (wrapSigned 64 (target + addend - patch)) then
      .patch (toLeBytes 4 (wrapSigned 64 (target + addend - patch)))
    else if isBranchType .x86_64 rType ∧ isBranchInsn .x86_64 image off then
      .veneer (branchDest .x86_64 target addend)
    else .refused
  | .x86Abs32S => if fitsI32 value then .patch (toLeBytes 4 value) else .refused
  | .x86Abs32 => if fitsU32 value then .patch (toLeBytes 4 value) else .refused
  | .x86Abs64 => .patch (toLeBytes 8 (target + addend))
  | _ => .refused

def requestAarch64 (image : ℕ → UInt8) (off : ℕ) (patch target addend : ℤ)
    (rType : RelocationType) : Request :=
  match rType with
  | .aarch64Call26 | .aarch64Jump26 =>
    let offset := wrapSigned 64 (target + addend - patch)
    if -call26Max ≤ offset ∧ offset ≤ call26Max then .patch (call26Bytes image off offset)
    else .veneer (branchDest .aarch64 target addend)
  | .aarch64AdrPrelPgHi21 => .patch (insnBytes image off 0x9F00001F (adrpBits patch (target + addend)))
  | .aarch64AddAbsLo12Nc | .aarch64Ldst8AbsLo12Nc | .aarch64Ldst16AbsLo12Nc
  | .aarch64Ldst32AbsLo12Nc | .aarch64Ldst64AbsLo12Nc | .aarch64Ldst128AbsLo12Nc =>
    .patch (insnBytes image off 0xFFC003FF
      ((wrapUnsigned 12 (target + addend)).toNat >>> lo12Shift rType <<< 10))
  | _ => .refused

def request (image : ℕ → UInt8) (off : ℕ) (patch target addend : ℤ) (rType : RelocationType) :
    Request :=
  match arch with
  | .x86_64 => requestX86 image off patch target addend rType
  | .aarch64 => requestAarch64 image off patch target addend rType

/-! ## The plan of an object -/

/-- The sections as relocated so far, and the destinations that have a veneer. -/
structure Plan where
  image : ℕ → UInt8
  dests : List ℤ

namespace Plan

def demand (plan : Plan) (dest : ℤ) : Plan :=
  if dest ∈ plan.dests then plan else { plan with dests := plan.dests ++ [dest] }

def put (plan : Plan) (off : ℕ) (bytes : List UInt8) : Plan :=
  { plan with image := overlay plan.image off bytes }

/-- The offset of the veneer of a destination. -/
def slotOf (plan : Plan) (dest : ℤ) : ℕ := veneerBase obj + plan.dests.idxOf dest * veneerSize

def request (plan : Plan) (s : Site) : Request :=
  match targetAddr base resolve (layout obj.sections) obj s.reloc.target, s.reloc.flags with
  | .ok target, some rType =>
    JitLoader.request arch plan.image s.off (base + s.off) target s.reloc.addend rType
  | _, _ => .refused

/-- One relocation, and whether it is applied. -/
def step (plan : Plan) (s : Site) : Plan × Bool :=
  match plan.request arch base resolve obj s with
  | .patch bytes => (plan.put s.off bytes, true)
  | .veneer dest =>
    match hopBytes arch plan.image s.off ((plan.demand dest).slotOf obj dest) with
    | some bytes => ((plan.demand dest).put s.off bytes, true)
    | none => (plan.demand dest, false)
  | .refused => (plan, false)

/-- The relocations up to the first that is refused, and whether all are applied. -/
def run (plan : Plan) : List Site → Plan × Bool
  | [] => (plan, true)
  | s :: rest =>
    if (plan.step arch base resolve obj s).2 then run (plan.step arch base resolve obj s).1 rest
    else ((plan.step arch base resolve obj s).1, false)

/-- The sections as loaded, without veneers. -/
def start : Plan :=
  match loaded arch obj with
  | .ok m => ⟨m.get, []⟩
  | .error _ => ⟨fun _ => 0, []⟩

end Plan

/-- The run over all relocations of the object. -/
def planned : Plan × Bool := (Plan.start arch obj).run arch base resolve obj (sites obj)

/-! ## The condition -/

/-- A displacement that a field of 26 bits holds. -/
def Encodable (displacement : ℤ) : Prop :=
  4 ∣ displacement ∧ -2 ^ 27 ≤ displacement ∧ displacement < 2 ^ 27

/-- The displacement of a branch to the veneer of a destination. -/
def hopOf (off : ℕ) (dest : ℤ) : ℤ :=
  ((planned arch base resolve obj).1.slotOf obj dest : ℤ) - off

/-- The displacement of an aarch64 branch is encodable, or what its field holds of it goes to the
    destination or the veneer by coincidence. -/
def Reaches (off : ℕ) (dest : ℤ) : Prop :=
  let offset := wrapSigned 64 (dest - (base + off))
  if -call26Max ≤ offset ∧ offset ≤ call26Max then
    4 ∣ offset ∨
      dest ∈ (planned arch base resolve obj).1.dests ∧
        offset / 4 * 4 = hopOf arch base resolve obj off dest
  else
    Encodable (hopOf arch base resolve obj off dest) ∨
      offset = -2 ^ 27 ∧ wrapSigned 26 (hopOf arch base resolve obj off dest / 4) = -2 ^ 25

/-- The destinations out of reach have a slot each, and every aarch64 branch reaches. -/
structure WithinReach : Prop where
  slots : (planned arch base resolve obj).1.dests.length ≤ veneerSlots arch obj
  reaches : arch = .aarch64 → (planned arch base resolve obj).2 = true →
    ∀ s ∈ obj.sections, s.loadable → ∀ off, (layout obj.sections).offsetOf s.index = some off →
      ∀ r ∈ s.relocations, r.IsBranch arch s →
        ∀ target, targetAddr base resolve (layout obj.sections) obj r.target = .ok target →
          Reaches arch base resolve obj (off + r.offset) (branchDest arch target r.addend)

end

end Svod.Runtime.JitLoader
