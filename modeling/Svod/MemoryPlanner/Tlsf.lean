/-
  Svod.MemoryPlanner.Tlsf

  The two-level segregated fit allocator that assigns byte offsets inside an
  arena (`tensor/src/memory_planner/tlsf.rs`).

  Sizes and offsets are 64-bit words with the overflow checks of the checked
  build: `none` is an abort (an overflowing sum, an index out of bounds, a missing map key, a
  failed `debug_assert!`).  The two `while` loops take a step budget; running out
  of it is `none` as well, and `fuel` exceeds the number of blocks an arena can
  hold.  `blocks` is a `HashMap` that is never iterated, so it is read as a
  partial function from start offsets.
-/

import Svod.Lib.Checked

namespace Svod.MemoryPlanner.Tlsf

open Svod.Lib.Checked

inductive TlsfError where
  | outOfMemory (req : Nat)
  | unknownOffset (offset : Nat)
  | doubleFree (offset : Nat)
deriving DecidableEq, Repr

structure BlockMeta where
  size : Nat
  next : Option Nat
  prev : Option Nat
  isFree : Bool
deriving DecidableEq, Repr

structure TlsfAllocator where
  base : Nat
  blockSize : Nat
  /-- `lv2_cnt.bit_length()`. -/
  l2Bits : Nat
  /-- Free-list buckets indexed by `[lv1][lv2]`, each in insertion order. -/
  storage : List (List (List Nat))
  /-- Number of free blocks in each `lv1` row. -/
  lv1Entries : List Nat
  /-- Block metadata keyed by start offset. -/
  blocks : Nat → Option BlockMeta
  peakUsed : Nat

/-- Arm the aborts that Rust's `debug_assert!` raises. -/
def debugAssert (p : Bool) : Option Unit := if p then some () else none

def lv1 (size : Nat) : Nat := bitLength size

/-- Second-level bucket within the power-of-two range of `lv1 size`. -/
def lv2 (l2Bits size : Nat) : Nat :=
  let msb := bitLength size
  if msb = 0 then 0 else (size - 2 ^ (msb - 1)) >>> (msb - l2Bits)

/-- `round_up` of this file: the least multiple of `granule`, unless it is at most one. -/
def roundUp (n granule : Nat) : Option Nat :=
  if granule ≤ 1 then some n else divCeilMul n granule

/-- The size `alloc` searches for: the request with room for alignment, rounded
    up to the granularity of its bucket.  `granule` is a power of two, so the
    mask `& !(granule - 1)` drops the remainder modulo `granule`. -/
def searchSize (blockSize l2Bits reqSize align : Nat) : Option Nat := do
  let size := (← checkedAdd reqSize align) - 1
  let size := max size blockSize
  let msb := bitLength size
  if l2Bits < msb then
    let granule := 2 ^ (msb - l2Bits)
    let size := (← checkedAdd size granule) - 1
    some (size / granule * granule)
  else
    some size

namespace TlsfAllocator

def insertBlock (s : TlsfAllocator) (start : Nat) (b : BlockMeta) : TlsfAllocator :=
  { s with blocks := Function.update s.blocks start (some b) }

def removeBlock (s : TlsfAllocator) (start : Nat) : TlsfAllocator :=
  { s with blocks := Function.update s.blocks start none }

/-- `if let Some(n) = n && let Some(meta) = self.blocks.get_mut(&n) { meta.prev = prev }`. -/
def setPrev (s : TlsfAllocator) (n : Option Nat) (prev : Nat) : TlsfAllocator :=
  match n with
  | none => s
  | some nxt =>
    match s.blocks nxt with
    | none => s
    | some b => s.insertBlock nxt { b with prev := some prev }

def insertBlockIndex (s : TlsfAllocator) (start size : Nat) : Option TlsfAllocator := do
  let l1 := lv1 size
  let l2 := lv2 s.l2Bits size
  let row ← s.storage[l1]?
  let bucket ← row[l2]?
  let entries ← s.lv1Entries[l1]?
  some { s with
    storage := s.storage.set l1 (row.set l2 (bucket ++ [start]))
    lv1Entries := s.lv1Entries.set l1 (entries + 1) }

def removeBlockIndex (s : TlsfAllocator) (start size : Nat) : Option TlsfAllocator := do
  let l1 := lv1 size
  let l2 := lv2 s.l2Bits size
  let row ← s.storage[l1]?
  let bucket ← row[l2]?
  if start ∈ bucket then
    let entries ← s.lv1Entries[l1]?
    let entries ← checkedSub entries 1
    some { s with
      storage := s.storage.set l1 (row.set l2 (bucket.erase start))
      lv1Entries := s.lv1Entries.set l1 entries }
  else
    some s

/-- `TlsfAllocator::new`.  Its columns are counted in an `i32`: `lv2Cnt` is below `2 ^ 30` (the
    planner passes 32). -/
def new (size base blockSize lv2Cnt : Nat) : Option TlsfAllocator :=
  let lv2Cnt := max lv2Cnt 1
  let l2Bits := bitLength lv2Cnt
  let lv1Levels := bitLength size + 1
  let s : TlsfAllocator :=
    { base, blockSize, l2Bits
      storage := List.replicate lv1Levels (List.replicate (2 ^ l2Bits) [])
      lv1Entries := List.replicate lv1Levels 0
      blocks := fun _ => none
      peakUsed := 0 }
  if 0 < size then
    (s.insertBlock 0 ⟨size, none, none, true⟩).insertBlockIndex 0 size
  else
    some s

/-- Step budget of the coalescing loops: every block is non-empty and no arena
    is larger than its top row. -/
def fuel (s : TlsfAllocator) : Nat := 2 ^ s.storage.length

def splitBlock (s : TlsfAllocator) (start size newSize : Nat) : Option TlsfAllocator := do
  let target ← s.blocks start
  let next := target.next
  debugAssert target.isFree
  let s ← s.removeBlockIndex start size
  let mid ← checkedAdd start newSize
  let s := s.insertBlock start ⟨newSize, some mid, target.prev, true⟩
  let s ← s.insertBlockIndex start newSize
  let remainderSize ← checkedSub size newSize
  let s := s.insertBlock mid ⟨remainderSize, next, some start, true⟩
  let s ← s.insertBlockIndex mid remainderSize
  some (s.setPrev next mid)

/-- The `while` loop of `merge_right`: absorb free right neighbours into the
    block at `start`, returning the neighbour at which it stops. -/
def mergeRightLoop : Nat → TlsfAllocator → Nat → Nat → Option Nat →
    Option (TlsfAllocator × Option Nat)
  | 0, _, _, _, _ => none
  | _ + 1, s, _, _, none => some (s, none)
  | fuel + 1, s, start, size, some n =>
    match s.blocks n with
    | none => some (s, some n)
    | some blk =>
      if blk.isFree then do
        let s ← s.removeBlockIndex start size
        let s ← s.removeBlockIndex n blk.size
        let size ← checkedAdd size blk.size
        let cur ← s.blocks start
        let s := s.insertBlock start ⟨size, blk.next, cur.prev, true⟩
        let s ← s.insertBlockIndex start size
        mergeRightLoop fuel (s.removeBlock n) start size blk.next
      else
        some (s, some n)

def mergeRight (s : TlsfAllocator) (start : Nat) : Option TlsfAllocator := do
  let target ← s.blocks start
  debugAssert target.isFree
  let (s, nxt) ← mergeRightLoop s.fuel s start target.size target.next
  some (s.setPrev nxt start)

/-- The `while` loop of `merge_block`: walk left while the neighbour is free. -/
def walkLeft : Nat → TlsfAllocator → Nat → Option Nat
  | 0, _, _ => none
  | fuel + 1, s, start => do
    let b ← s.blocks start
    match b.prev with
    | none => some start
    | some prev =>
      match s.blocks prev with
      | none => some start
      | some p => if p.isFree then walkLeft fuel s prev else some start

def mergeBlock (s : TlsfAllocator) (start : Nat) : Option TlsfAllocator := do
  let s' ← walkLeft s.fuel s start
  s.mergeRight s'

/-- First non-empty bucket of row `l1`, from column `l2Start` on. -/
def findInRow (s : TlsfAllocator) (l1 l2Start : Nat) : Option Nat :=
  let row := s.storage.getD l1 []
  (List.range' l2Start (row.length - l2Start)).findSome? fun l2 => (row.getD l2 []).head?

/-- The two nested loops of `alloc`: the first block of the first non-empty
    bucket at or above `(targetL1, targetL2)`, rows whose counter is zero skipped. -/
def findBlock (s : TlsfAllocator) (targetL1 targetL2 : Nat) : Option Nat :=
  (List.range' targetL1 (s.storage.length - targetL1)).findSome? fun l1 =>
    if s.lv1Entries.getD l1 0 = 0 then none
    else s.findInRow l1 (if l1 = targetL1 then targetL2 else 0)

/-- Alignment step of `alloc`: a misaligned head is split off, so that the block
    at the returned start is aligned.  Returns that start and its block's size. -/
def splitHead (s : TlsfAllocator) (start nsize align : Nat) :
    Option (TlsfAllocator × Nat × Nat) := do
  let alignedStart ← roundUp start align
  if alignedStart ≠ start then
    let head ← checkedSub alignedStart start
    let s ← s.splitBlock start nsize head
    let b ← s.blocks alignedStart
    some (s, alignedStart, b.size)
  else
    some (s, start, nsize)

/-- Size step of `alloc`: what exceeds the request is split off. -/
def splitTail (s : TlsfAllocator) (start nsize reqSize : Nat) : Option TlsfAllocator :=
  if nsize > reqSize then s.splitBlock start nsize reqSize else some s

/-- Last step of `alloc`: unlist the block and mark it used. -/
def claimBlock (s : TlsfAllocator) (start reqSize : Nat) : Option TlsfAllocator := do
  let s ← s.removeBlockIndex start reqSize
  match s.blocks start with
  | none => some s
  | some b => some (s.insertBlock start { b with isFree := false })

/-- The body of `alloc` once the search has chosen the free block at `start`. -/
def takeBlock (s : TlsfAllocator) (start size reqSize align : Nat) :
    Option (TlsfAllocator × Nat) := do
  let b ← s.blocks start
  debugAssert (size ≤ b.size)
  let (s, start, nsize) ← s.splitHead start b.size align
  let s ← s.splitTail start nsize reqSize
  let s ← s.claimBlock start reqSize
  let absOffset ← checkedAdd start s.base
  let usedEnd ← checkedAdd start reqSize
  some ({ s with peakUsed := max s.peakUsed usedEnd }, absOffset)

/-- `TlsfAllocator::alloc`: the allocator afterwards and the call's result. -/
def alloc (s : TlsfAllocator) (reqSize align : Nat) :
    Option (TlsfAllocator × Except TlsfError Nat) := do
  let reqSize := max reqSize s.blockSize
  let align := max align 1
  let size ← searchSize s.blockSize s.l2Bits reqSize align
  match s.findBlock (lv1 size) (lv2 s.l2Bits size) with
  | none => some (s, .error (.outOfMemory reqSize))
  | some start => do
    let (s, off) ← s.takeBlock start size reqSize align
    some (s, .ok off)

/-- `TlsfAllocator::free`. -/
def free (s : TlsfAllocator) (offset : Nat) : Option (TlsfAllocator × Except TlsfError Unit) :=
  if offset < s.base then
    some (s, .error (.unknownOffset offset))
  else
    let start := offset - s.base
    match s.blocks start with
    | none => some (s, .error (.unknownOffset offset))
    | some blk =>
      if blk.isFree then some (s, .error (.doubleFree offset))
      else do
        let s := s.insertBlock start { blk with isFree := true }
        let s ← s.insertBlockIndex start blk.size
        let s ← s.mergeBlock start
        some (s, .ok ())

end TlsfAllocator

/-! ## Call sequences -/

/-- A call a client makes. -/
inductive Call where
  | alloc (req align : Nat)
  | free (offset : Nat)
deriving DecidableEq, Repr

/-- An allocation the client still holds: its offset and the size it asked for. -/
structure Live where
  offset : Nat
  req : Nat
deriving DecidableEq, Repr

/-- One call: a successful `alloc` is recorded as live, a successful `free`
    retires the allocation of that offset, an error changes nothing. -/
def step (s : TlsfAllocator × List Live) : Call → Option (TlsfAllocator × List Live)
  | .alloc req align => do
    let (s', r) ← s.1.alloc req align
    match r with
    | .ok off => some (s', ⟨off, req⟩ :: s.2)
    | .error _ => some (s', s.2)
  | .free offset => do
    let (s', r) ← s.1.free offset
    match r with
    | .ok _ => some (s', s.2.filter (·.offset ≠ offset))
    | .error _ => some (s', s.2)

/-- A finite sequence of calls. -/
def run (s : TlsfAllocator × List Live) (calls : List Call) : Option (TlsfAllocator × List Live) :=
  calls.foldlM step s

end Svod.MemoryPlanner.Tlsf
