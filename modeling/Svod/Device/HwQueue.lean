/-
  Svod.Device.HwQueue

  The hardware rings of an AMD queue: publication of commands by the host and
  their consumption by the device.

  A ring is counted in units of its kind: dwords for PM4, 64-byte packets for
  AQL, bytes for SDMA.  Under the queue lock the host waits for headroom, writes
  its chunks, rings the doorbell, and lets the lock go; a guard that is dropped
  before the doorbell puts the producer index back.  The device reads up to the
  last doorbell at any time.  A PM4 queue reports its read index only modulo the
  ring, and `absolutePm4ReadIdx` recovers the rest of it from the producer index.

  `commands` and `seen` are not in the code: the chunks written so far and what
  the device has read, which the properties of the ring are stated with.
-/

import Svod.Lib.Ring
import Svod.Lib.Runs

namespace Svod.Device.HwQueue

open Svod.Lib

/-- What runs on the ring, which fixes the unit it is counted in. -/
inductive RingKind where
  | pm4
  | aql
  | sdma
  deriving DecidableEq, Repr

/-- Bytes of a unit: `ring_size` is this times the capacity. -/
def RingKind.unitBytes : RingKind → ℕ
  | .pm4 => 4
  | .aql => 64
  | .sdma => 1

/-- A publication under the queue lock. -/
structure Publication (α : Type*) where
  /-- `RingRollback::saved`. -/
  saved : ℕ
  savedCommands : List (List α)
  /-- Chunks still to be written. -/
  left : List (List α)
  /-- A doorbell has rung since the lock was taken. -/
  committed : Bool

structure Queue (α : Type*) where
  kind : RingKind
  capacity : ℕ
  ring : ℕ → α
  writeIdx : ℕ
  /-- The producer index at the last doorbell. -/
  published : ℕ
  readIdx : ℕ
  seen : List α
  commands : List (List α)
  publication : Option (Publication α)

variable {α : Type*} [Zero α]

/-- An idle queue over a ring with any contents. -/
def Queue.new (kind : RingKind) (capacity : ℕ) (ring : ℕ → α) : Queue α :=
  { kind, capacity, ring, writeIdx := 0, published := 0, readIdx := 0, seen := [],
    commands := [], publication := none }

/-! ## Headroom -/

/-- `absolute_pm4_read_idx`; the subtraction saturates. -/
def absolutePm4ReadIdx (writeIdx reportedRead capacity : ℕ) : ℕ :=
  let read := writeIdx / capacity * capacity + reportedRead % capacity
  if writeIdx < read then read - capacity else read

/-- What the device reports of its read index. -/
def Queue.reportedRead (q : Queue α) : ℕ :=
  match q.kind with
  | .pm4 => q.readIdx % q.capacity
  | .aql | .sdma => q.readIdx

/-- `pm4_shortfall`: the index to wait for and the index seen, if `dwords` do not fit. -/
def pm4Shortfall (q : Queue α) (dwords : ℕ) : Option (ℕ × ℕ) :=
  let read := absolutePm4ReadIdx q.writeIdx q.reportedRead q.capacity
  let needed := q.writeIdx + dwords
  if q.capacity < needed - read then some (needed - q.capacity, read) else none

/-- `aql_shortfall`. -/
def aqlShortfall (q : Queue α) (packets : ℕ) : Option (ℕ × ℕ) :=
  let needed := q.writeIdx + packets
  if q.capacity < needed - q.reportedRead then some (needed - q.capacity, q.reportedRead) else none

/-- `sdma_shortfall`. -/
def sdmaShortfall (q : Queue α) (published : ℕ) : Option (ℕ × ℕ) :=
  let needed := q.writeIdx + published
  if q.capacity < needed - q.reportedRead then some (needed - q.capacity, q.reportedRead) else none

/-- The bytes `wait_sdma_headroom` waits for: the packets and the padding before them. -/
def sdmaPublishedBytes (q : Queue α) (bytes : ℕ) : ℕ :=
  let pos := q.writeIdx % q.capacity
  bytes + if q.capacity < pos + bytes then q.capacity - pos else 0

/-- The producer index after a chunk of `bytes`, which never straddles the ring's end. -/
def sdmaAdvance (capacity writeIdx bytes : ℕ) : ℕ :=
  let pos := writeIdx % capacity
  (if capacity < pos + bytes then writeIdx + (capacity - pos) else writeIdx) + bytes

/-- `linked_sdma_published_bytes`, without its two size checks. -/
def linkedSdmaPublishedBytes (capacity writeIdx : ℕ) (lengths : List ℕ) : ℕ :=
  lengths.foldl (sdmaAdvance capacity) writeIdx - writeIdx

/-- How a publication asks for its headroom. -/
inductive Headroom where
  /-- `wait_pm4_headroom`, `wait_aql_headroom` or `wait_sdma_headroom` for so many units. -/
  | total (units : ℕ)
  /-- `wait_sdma_sequence_headroom`. -/
  | sequence
  deriving DecidableEq, Repr

def units (chunks : List (List α)) : ℕ := (chunks.map List.length).sum

/-- The checks that let a publication of `chunks` begin. -/
def Queue.accepts (q : Queue α) (headroom : Headroom) (chunks : List (List α)) : Bool :=
  match q.kind, headroom with
  | .pm4, .total n =>
    chunks.all (fun c => !c.isEmpty) && n == units chunks && 0 < n && n < q.capacity
      && (pm4Shortfall q n).isNone
  | .aql, .total n =>
    chunks.all (fun c => !c.isEmpty) && n == units chunks && 0 < n && n < q.capacity
      && (aqlShortfall q n).isNone
  | .sdma, .total n =>
    units chunks ≤ n && n < q.capacity && (sdmaShortfall q (sdmaPublishedBytes q n)).isNone
  | .sdma, .sequence =>
    chunks.all (fun c => 0 < c.length && c.length < q.capacity)
      && linkedSdmaPublishedBytes q.capacity q.writeIdx (chunks.map List.length) < q.capacity
      && (sdmaShortfall q
            (linkedSdmaPublishedBytes q.capacity q.writeIdx (chunks.map List.length))).isNone
  | .pm4, .sequence | .aql, .sequence => false

/-! ## Writing -/

/-- The loop of `push_pm4` and `push_pm4_bytes`. -/
def writeDwords (capacity : ℕ) : (ℕ → α) → ℕ → List α → (ℕ → α)
  | ring, _, [] => ring
  | ring, idx, dw :: dws =>
    writeDwords capacity (Function.update ring idx dw) ((idx + 1) % capacity) dws

/-- `push_aql` for each packet, at a byte offset of the ring. -/
def writePackets (capacity : ℕ) : (ℕ → α) → ℕ → List α → (ℕ → α)
  | ring, _, [] => ring
  | ring, writeIdx, packet :: packets =>
    let off := writeIdx * RingKind.unitBytes .aql % (capacity * RingKind.unitBytes .aql)
    writePackets capacity
      (Function.update ring (off / RingKind.unitBytes .aql) packet) (writeIdx + 1) packets

/-- A block copy to consecutive places. -/
def writeBlock : (ℕ → α) → ℕ → List α → (ℕ → α)
  | ring, _, [] => ring
  | ring, pos, b :: bs => writeBlock (Function.update ring pos b) (pos + 1) bs

/-- The zero bytes `push_sdma` puts before a chunk that would straddle the ring's end. -/
def padding (capacity writeIdx bytes : ℕ) : List α :=
  let pos := writeIdx % capacity
  if capacity < pos + bytes then List.replicate (capacity - pos) 0 else []

/-- Write one chunk at the producer index. -/
def Queue.push (q : Queue α) (chunk : List α) : Queue α :=
  match q.kind with
  | .pm4 =>
    { q with
      ring := writeDwords q.capacity q.ring (q.writeIdx % q.capacity) chunk
      writeIdx := q.writeIdx + chunk.length
      commands := q.commands ++ [chunk] }
  | .aql =>
    { q with
      ring := writePackets q.capacity q.ring q.writeIdx chunk
      writeIdx := q.writeIdx + chunk.length
      commands := q.commands ++ [chunk] }
  | .sdma =>
    let pad := padding q.capacity q.writeIdx chunk.length
    let padded := writeBlock q.ring (q.writeIdx % q.capacity) pad
    let start := q.writeIdx + pad.length
    { q with
      ring := writeBlock padded (start % q.capacity) chunk
      writeIdx := start + chunk.length
      commands := q.commands ++ [chunk] }

/-! ## Steps -/

inductive Label (α : Type*) where
  /-- The host takes the queue lock and its wait for headroom succeeds. -/
  | reserve (headroom : Headroom) (chunks : List (List α))
  /-- The host writes its next chunk. -/
  | push
  /-- The host publishes the producer index. -/
  | doorbell
  /-- The host fails before its doorbell, and `RingRollback` is dropped. -/
  | rollback
  /-- The host lets the lock go after its doorbell. -/
  | release
  /-- The device reads `n` more units. -/
  | consume (n : ℕ)

/-- The queue lock is held to write `chunks`. -/
def Queue.lock (q : Queue α) (chunks : List (List α)) : Queue α :=
  let p : Publication α :=
    { saved := q.writeIdx, savedCommands := q.commands, left := chunks, committed := false }
  { q with publication := some p }

def step (q : Queue α) : Label α → Option (Queue α)
  | .reserve headroom chunks =>
    match q.publication with
    | none =>
      if q.accepts headroom chunks then
        some (q.lock chunks)
      else none
    | some _ => none
  | .push =>
    match q.publication with
    | some p =>
      match p.left with
      | chunk :: left => some { q.push chunk with publication := some { p with left := left } }
      | [] => none
    | none => none
  | .doorbell =>
    match q.publication with
    | some p =>
      some { q with published := q.writeIdx, publication := some { p with committed := true } }
    | none => none
  | .rollback =>
    match q.publication with
    | some p =>
      if p.committed then none
      else some { q with writeIdx := p.saved, commands := p.savedCommands, publication := none }
    | none => none
  | .release =>
    match q.publication with
    | some p =>
      if p.committed ∧ q.published = q.writeIdx then some { q with publication := none } else none
    | none => none
  | .consume n =>
    if q.readIdx + n ≤ q.published then
      some { q with
        seen := q.seen ++ (List.range n).map fun i => q.ring ((q.readIdx + i) % q.capacity)
        readIdx := q.readIdx + n }
    else none

/-! ## What the ring promises -/

/-- The units that chunks take from position `pos` on, paddings included. -/
def layout (kind : RingKind) (capacity : ℕ) : ℕ → List (List α) → List α
  | _, [] => []
  | pos, chunk :: chunks =>
    match kind with
    | .pm4 | .aql => chunk ++ layout kind capacity (pos + chunk.length) chunks
    | .sdma =>
      let pad := padding capacity pos chunk.length
      pad ++ chunk ++ layout kind capacity (pos + pad.length + chunk.length) chunks

/-- Everything written to the ring so far. -/
def Queue.written (q : Queue α) : List α := layout q.kind q.capacity 0 q.commands

/-- The ring never loses a published unit, and the device reads what was published. -/
structure Queue.Safe (q : Queue α) : Prop where
  read_le : q.readIdx ≤ q.published
  published_le : q.published ≤ q.writeIdx
  /-- Nothing is written over a unit that has not been read. -/
  room : q.writeIdx ≤ q.readIdx + q.capacity
  /-- Every published unit that has not been read is in its slot. -/
  unread : ∀ i, q.readIdx ≤ i → i < q.published →
    q.written[i]? = some (q.ring (i % q.capacity))
  /-- The device has read the commands in order. -/
  seen : q.seen = q.written.take q.readIdx
  /-- Between publications everything written is published. -/
  settled : q.publication = none → q.published = q.writeIdx ∧ q.written.length = q.writeIdx

/-- The producer is not a whole ring ahead of the device. -/
def Queue.NotFull (q : Queue α) : Prop := q.writeIdx < q.readIdx + q.capacity

instance (q : Queue α) : Decidable q.NotFull := inferInstanceAs (Decidable (_ < _))

/-- A wait for headroom on a PM4 ring that is not full; every other step. -/
def WaitsNotFull (q : Queue α) : Label α → Prop
  | .reserve _ _ => q.kind = .pm4 → q.NotFull
  | _ => True

end Svod.Device.HwQueue
