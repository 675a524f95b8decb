/-
  Svod.Device.SdmaRing

  The byte accounting of the SDMA copy ring (`device/src/amd/queue.rs`,
  `device/src/amd/sys/sdma.rs`).

  The padding before the ring's end is computed in three places: for a list of
  streams, for one blob, and by every push.  Indices are `u64` counters of a
  release build; lengths and offsets are below the size of an allocation, so
  their sums do not overflow a `usize`.
-/

import Svod.Device.HwQueue

namespace Svod.Device.SdmaRing

open Svod.Device.HwQueue (writeBlock)

/-- `u64` addition of a release build. -/
def wrapU64 (x : ℕ) : ℕ := x % 2 ^ 64

/-- `u64` subtraction of a release build. -/
def subU64 (x y : ℕ) : ℕ := wrapU64 (x + (2 ^ 64 - y))

inductive Error where
  | commandStreamTooLarge (kind : String) (actual limit : ℕ)
  | timelineTimeout (what : String) (target current waitedMs : ℕ)
  deriving DecidableEq, Repr

def linkedKind : String := "SDMA linked transaction"

/-- The ring of a copy queue under its lock. -/
structure QueueInner where
  ringSize : ℕ
  ring : ℕ → UInt8
  writeIdx : ℕ
  ringSize_pos : 0 < ringSize
  four_dvd_ringSize : 4 ∣ ringSize
  /-- An allocation has at most `isize::MAX` bytes. -/
  ringSize_lt : ringSize < 2 ^ 63
  writeIdx_lt : writeIdx < 2 ^ 64

/-! ## Lists of streams -/

/-- One stream of `linked_sdma_published_bytes`. -/
def linkedStep (ringSize next bytes : ℕ) : Except Error ℕ :=
  if bytes = 0 ∨ bytes % 4 ≠ 0 ∨ ringSize ≤ bytes then
    .error (.commandStreamTooLarge linkedKind bytes (ringSize - 4))
  else
    let pos := next % ringSize
    let next := if ringSize < pos + bytes then wrapU64 (next + (ringSize - pos)) else next
    -- `checked_add`
    if next + bytes < 2 ^ 64 then .ok (next + bytes)
    else .error (.commandStreamTooLarge linkedKind (2 ^ 64 - 1) (ringSize - 4))

/-- `linked_sdma_published_bytes`; the last subtraction saturates. -/
def linkedSdmaPublishedBytes (writeIdx ringSize : ℕ) (byteLengths : List ℕ) : Except Error ℕ := do
  let next ← byteLengths.foldlM (linkedStep ringSize) writeIdx
  let published := next - writeIdx
  if ringSize ≤ published then
    .error (.commandStreamTooLarge linkedKind published (ringSize - 4))
  else .ok published

namespace QueueInner

variable (g : QueueInner)

/-! ## Headroom -/

/-- `sdma_shortfall`, when the device reports the read index `read`. -/
def sdmaShortfall (read published : ℕ) : Option (ℕ × ℕ) :=
  let needed := wrapU64 (g.writeIdx + published)
  if g.ringSize < subU64 needed read then some (subU64 needed g.ringSize, read) else none

/-- The check of `wait_sdma_headroom` and the amount it reserves. -/
def sdmaReserve (bytes : ℕ) : Except Error ℕ :=
  if g.ringSize ≤ bytes then
    .error (.commandStreamTooLarge "SDMA ring submission" bytes (g.ringSize - 4))
  else
    let pos := g.writeIdx % g.ringSize
    .ok (bytes + if g.ringSize < pos + bytes then g.ringSize - pos else 0)

/-! ## Writing -/

/-- The zero bytes written before a chunk that would straddle the ring's end. -/
def pad (bytes : ℕ) : ℕ :=
  let pos := g.writeIdx % g.ringSize
  if g.ringSize < pos + bytes then g.ringSize - pos else 0

/-- The ring after the padding. -/
def padded (bytes : ℕ) : QueueInner :=
  { g with
    ring := writeBlock g.ring (g.writeIdx % g.ringSize) (List.replicate (g.pad bytes) 0)
    writeIdx := wrapU64 (g.writeIdx + g.pad bytes)
    writeIdx_lt := Nat.mod_lt _ (by decide) }

/-- Where a chunk is copied to. -/
def start (bytes : ℕ) : ℕ := (g.padded bytes).writeIdx % g.ringSize

/-- `push_sdma_bytes`. -/
def pushSdmaBytes (bytes : List UInt8) : QueueInner :=
  { g.padded bytes.length with
    ring := writeBlock (g.padded bytes.length).ring (g.start bytes.length) bytes
    writeIdx := wrapU64 ((g.padded bytes.length).writeIdx + bytes.length)
    writeIdx_lt := Nat.mod_lt _ (by decide) }

/-- The chunks one after the other. -/
def pushAll (chunks : List (List UInt8)) : QueueInner := chunks.foldl pushSdmaBytes g

end QueueInner

/-! ## Packets -/

/-- The little-endian bytes of a dword. -/
def dwordBytes (d : UInt32) : List UInt8 :=
  [d.toUInt8, (d >>> 8).toUInt8, (d >>> 16).toUInt8, (d >>> 24).toUInt8]

/-- A dword slice as the bytes `push_sdma` copies. -/
def sliceBytes (dwords : List UInt32) : List UInt8 := dwords.flatMap dwordBytes

def lo (addr : UInt64) : UInt32 := addr.toUInt32

def hi (addr : UInt64) : UInt32 := (addr >>> 32).toUInt32

def sdmaMaxCopyBytes : ℕ := 0x400000

/-- `copy_linear`. -/
def copyLinear (src dst : UInt64) (size : ℕ) : List UInt32 :=
  [(1 : UInt32) ||| ((0 : UInt32) <<< 8), UInt32.ofNat (size - 1) &&& 0x3FFFFF, 0, lo src, hi src,
    lo dst, hi dst]

/-- `fence`. -/
def fence (addr : UInt64) (value targetMajor : UInt32) : List UInt32 :=
  let mtype : UInt32 := if targetMajor = 9 then 0 else (3 : UInt32) <<< 16
  [(5 : UInt32) ||| mtype, lo addr, hi addr, value]

/-- `trap`. -/
def trap (eventId : UInt32) : List UInt32 := [6, eventId &&& 0xFFFFFFF]

/-- The event mailbox of a queue. -/
structure Mailbox where
  address : UInt64
  eventId : UInt32

/-- The loop of `copy_fenced` from the offset `off` on. -/
def copyChunks (src dst : UInt64) (size off : ℕ) : List (List UInt32) :=
  if _h : off < size then
    let n := min (size - off) sdmaMaxCopyBytes
    copyLinear (src + UInt64.ofNat off) (dst + UInt64.ofNat off) n
      :: copyChunks src dst size (off + n)
  else []
termination_by size - off
decreasing_by
  have hmax : 0 < sdmaMaxCopyBytes := by decide
  omega

/-- The packets of `copy_fenced`: the copy, the timeline fence and the completion interrupt. -/
def copyFencedPackets (src dst : UInt64) (size : ℕ) (valueAddr : UInt64)
    (target targetMajor : UInt32) (mailbox : Option Mailbox) : List (List UInt32) :=
  copyChunks src dst size 0 ++ fence valueAddr target targetMajor ::
    match mailbox with
    | some m => [fence m.address m.eventId targetMajor, trap m.eventId]
    | none => []

/-- The bytes `copy_fenced` asks headroom for. -/
def copyFencedBytes (size : ℕ) : ℕ :=
  let copyPackets := (size + sdmaMaxCopyBytes - 1) / sdmaMaxCopyBytes
  copyPackets * 7 * 4 + 10 * 4

/-- The bytes `submit_hcq` asks headroom for. -/
def submitHcqBytes (dwords : List UInt32) : ℕ := dwords.length * 4

end Svod.Device.SdmaRing
