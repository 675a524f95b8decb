/-
  Svod.MemoryPlanner.Planner

  The memory planner (`tensor/src/memory_planner/mod.rs`): liveness in execution
  levels, the event timeline, pool reuse (`Remap`) and arena packing (`Arena`).

  As in `Tlsf`, `none` is an abort: a level vector shorter than the schedule, or
  an overflowing size.  A `HashMap` is an association list whose order is not
  observed: the timeline is sorted by keys that are pairwise distinct.  Buffer
  handles carry their id; a `Schedule` records that one id means one handle, as
  ids are minted once per handle.  Of a kernel's AST the planner reads two
  facts, kept as fields: whether it is a SINK, and which buffer UOps its gated
  stores address.
-/

import Mathlib.Data.List.AList
import Mathlib.Data.List.Sort
import Svod.DType
import Svod.MemoryPlanner.Tlsf

namespace Svod.MemoryPlanner

open Svod.Lib.Checked

/-- Minimum block size for buffer pooling. -/
def minBlockSize : Nat := 256

/-- How buffers are shared: not at all, by pools, or inside arenas. -/
inductive PlannerMode where
  | disabled | remap | arena
deriving DecidableEq, Repr

/-- `round_up` of this file. -/
def roundUp (size blockSize : Nat) : Option Nat := divCeilMul size blockSize

/-! ## Buffers and schedules -/

/-- The class of memory behind a buffer. -/
structure BufferSpec where
  uncached : Bool
  cpuAccess : Bool
  host : Bool
  nolru : Bool
deriving DecidableEq, Repr

/-- The storage a buffer and its views share. -/
structure BufferData where
  storageId : Nat
  device : DeviceSpec
  options : BufferSpec
  totalSize : Nat
  allocated : Bool
deriving DecidableEq, Repr

/-- A handle: a window of some storage, read as an array. -/
structure Buffer where
  id : Nat
  data : BufferData
  offset : Nat
  size : Nat
  dtype : DType
  shape : List Nat
deriving DecidableEq, Repr

namespace Buffer

def spec (b : Buffer) : BufferSpec := b.data.options

/-- A fresh lazily allocated buffer of `size` bytes; `id` is the handle id minted for it. -/
def new (id : Nat) (device : DeviceSpec) (dtype : DType) (shape : List Nat)
    (options : BufferSpec) : Buffer :=
  let size := dtype.bytes * shape.prod
  ⟨id, ⟨id, device, options, size, false⟩, 0, size, dtype, shape⟩

/-- `Buffer::view`: a window of the buffer under a fresh handle id, refused when it does
    not fit. -/
def view (b : Buffer) (id offset size : Nat) : Option (Except Unit Buffer) := do
  let stop ← checkedAdd offset size
  if stop > b.size then some (.error ())
  else
    let off ← checkedAdd b.offset offset
    some (.ok ⟨id, b.data, off, size, b.dtype, [size / b.dtype.bytes]⟩)

end Buffer

/-- One kernel with its buffers. -/
structure ScheduleItem where
  buffers : List Buffer
  /-- UOp id of each buffer, in the same order. -/
  bufferUopIds : List Nat
  /-- The item's AST is a SINK. -/
  isSink : Bool
  /-- Base buffer UOps addressed by the gated stores of the AST. -/
  gatedStoreUops : List Nat

/-- A schedule; a handle id names one handle throughout. -/
structure Schedule where
  items : List ScheduleItem
  ids_identify : ∀ it ∈ items, ∀ it' ∈ items, ∀ b ∈ it.buffers, ∀ b' ∈ it'.buffers,
    b.id = b'.id → b = b'

/-! ## Planner data -/

/-- What two buffers of one pool have in common. -/
structure BufferPoolKey where
  device : DeviceSpec
  dtype : DType
  size : Nat
deriving DecidableEq, Repr

/-- The levels at which a buffer is in use. -/
structure BufferLiveness where
  firstLevel : Nat
  lastLevel : Nat
  poolKey : BufferPoolKey
  /-- Representative logical buffer for this allocation id. -/
  proto : Buffer
deriving DecidableEq, Repr

/-- A buffer is needed from here on, or is free. -/
structure BufferEvent where
  timestep : Nat
  isAlloc : Bool
  bufferId : Nat
deriving DecidableEq, Repr

/-- A buffer slot of a schedule item. -/
structure BufferKey where
  kernelIdx : Nat
  bufferIdx : Nat
deriving DecidableEq, Repr

/-- Why a buffer keeps its own storage. -/
inductive PlannerExclusionReason where
  | disk | viewOrOffset | alreadyAllocated | output | aliasedStorage | nonSinkOperation | gatedStore
deriving DecidableEq, Repr

/-- What one reason excludes. -/
structure PlannerExclusionStats where
  allocations : Nat
  bytes : Nat
deriving DecidableEq, Repr

/-- What the planner reports. -/
structure MemoryPlannerMetrics where
  mode : PlannerMode
  logicalAllocations : Nat := 0
  logicalBytes : Nat := 0
  roundedBytes : Nat := 0
  logicalPeakBytes : Nat := 0
  arenaCommittedBytes : Nat := 0
  physicalBytes : Nat := 0
  paddingBytes : Nat := 0
  fragmentationBytes : Nat := 0
  reusedAllocations : Nat := 0
  reusedBytes : Nat := 0
  exclusions : List (PlannerExclusionReason × PlannerExclusionStats) := []

/-- The new handle of every slot that gets one. -/
structure MemoryPlannerResult where
  bufferReplace : List (BufferKey × Buffer)
  memorySaved : Nat
  buffersReused : Nat
  metrics : MemoryPlannerMetrics

/-- Liveness keyed by handle id. -/
abbrev Liveness := AList fun _ : Nat => BufferLiveness

/-- The buffers that take part, and their slots. -/
structure PlannerInput where
  liveness : Liveness
  occurrences : List (BufferKey × Nat)
  metrics : MemoryPlannerMetrics

/-! ## Exclusions -/

/-- The ids excluded by a look at the whole schedule. -/
structure ExcludedBufferIds where
  aliased : List Nat
  nonSink : List Nat
  gatedStore : List Nat

/-- What alias detection compares: two handles of one storage that differ in it alias. -/
def Buffer.aliasKey (b : Buffer) : Nat × Nat × DType × List Nat :=
  (b.offset, b.size, b.dtype, b.shape)

/-- The ids that a schedule excludes. -/
def collectExcludedBufferIds (schedule : Schedule) : ExcludedBufferIds :=
  let all := schedule.items.flatMap (·.buffers)
  let aliasedStorage (sid : Nat) : Bool :=
    all.any fun b => all.any fun b' =>
      b.data.storageId = sid && b'.data.storageId = sid && b.aliasKey ≠ b'.aliasKey
  { aliased := (all.filter fun b => aliasedStorage b.data.storageId).map (·.id)
    nonSink := (schedule.items.filter (!·.isSink)).flatMap fun it => it.buffers.map (·.id)
    gatedStore := schedule.items.flatMap fun it =>
      -- the zip is collected into a map, so a repeated UOp id keeps its last buffer
      it.gatedStoreUops.filterMap fun uop =>
        (it.bufferUopIds.zip (it.buffers.map (·.id))).reverse.lookup uop }

/-- The first reason against a buffer. -/
def exclusionReason (buffer : Buffer) (outputBufferIds : List Nat) (excluded : ExcludedBufferIds) :
    Option PlannerExclusionReason :=
  if buffer.data.device.isDisk then some .disk
  else if buffer.offset ≠ 0 then some .viewOrOffset
  else if buffer.data.allocated then some .alreadyAllocated
  else if buffer.id ∈ outputBufferIds then some .output
  else if buffer.id ∈ excluded.aliased then some .aliasedStorage
  else if buffer.id ∈ excluded.nonSink then some .nonSinkOperation
  else if buffer.id ∈ excluded.gatedStore then some .gatedStore
  else none

/-! ## Liveness -/

/-- Extend the interval of a known buffer, or start one at `level`. -/
def recordUse (liveness : Liveness) (level : Nat) (buffer : Buffer) (poolKey : BufferPoolKey) :
    Liveness :=
  match liveness.lookup buffer.id with
  | some info => liveness.insert buffer.id
      { info with firstLevel := min info.firstLevel level, lastLevel := max info.lastLevel level }
  | none => liveness.insert buffer.id ⟨level, level, poolKey, buffer⟩

/-- Count one more excluded allocation under its reason. -/
def addExclusion (reason : PlannerExclusionReason) (bytes : Nat) :
    List (PlannerExclusionReason × PlannerExclusionStats) →
    List (PlannerExclusionReason × PlannerExclusionStats)
  | [] => [(reason, ⟨1, bytes⟩)]
  | (r, st) :: rest =>
    if r = reason then (r, ⟨st.allocations + 1, st.bytes + bytes⟩) :: rest
    else (r, st) :: addExclusion reason bytes rest

/-- State of the two nested loops of `analyze_liveness`. -/
structure LivenessState where
  liveness : Liveness
  occurrences : List (BufferKey × Nat)
  classified : List Nat
  exclusions : List (PlannerExclusionReason × PlannerExclusionStats)

/-- One buffer slot of the schedule. -/
def visitSlot (outputBufferIds : List Nat) (excluded : ExcludedBufferIds) (level : Nat)
    (st : LivenessState) (slot : BufferKey × Buffer) : Option LivenessState := do
  let (key, buffer) := slot
  match exclusionReason buffer outputBufferIds excluded with
  | some reason =>
    if buffer.id ∈ st.classified then some st
    else some { st with
      classified := buffer.id :: st.classified
      exclusions := addExclusion reason buffer.size st.exclusions }
  | none =>
    let size ← roundUp buffer.size minBlockSize
    some { st with
      occurrences := st.occurrences ++ [(key, buffer.id)]
      liveness := recordUse st.liveness level buffer ⟨buffer.data.device, buffer.dtype, size⟩ }

/-- The slots of one item, with their keys. -/
def ScheduleItem.slots (it : ScheduleItem) (stepIdx : Nat) : List (BufferKey × Buffer) :=
  it.buffers.zipIdx.map fun (b, i) => (⟨stepIdx, i⟩, b)

/-- One schedule item: its level is read from the vector, out of bounds aborts. -/
def visitItem (itemLevels : List Nat) (outputBufferIds : List Nat) (excluded : ExcludedBufferIds)
    (st : LivenessState) (item : ScheduleItem × Nat) : Option LivenessState := do
  let level ← itemLevels[item.2]?
  (item.1.slots item.2).foldlM (visitSlot outputBufferIds excluded level) st

/-- The intervals, in no order. -/
def Liveness.values (l : Liveness) : List BufferLiveness := l.entries.map (·.2)

/-- The figures that follow from the intervals. -/
def livenessMetrics (mode : PlannerMode) (liveness : Liveness)
    (exclusions : List (PlannerExclusionReason × PlannerExclusionStats)) : MemoryPlannerMetrics :=
  let infos := liveness.values
  let logicalBytes := (infos.map (·.proto.size)).sum
  let roundedBytes := (infos.map (·.poolKey.size)).sum
  let liveAt (level : Nat) : Nat :=
    ((infos.filter fun i => i.firstLevel ≤ level && level ≤ i.lastLevel).map (·.proto.size)).sum
  { mode
    logicalAllocations := infos.length
    logicalBytes
    roundedBytes
    paddingBytes := roundedBytes - logicalBytes
    logicalPeakBytes :=
      match (infos.map (·.lastLevel)).max? with
      | none => 0
      | some maxLevel => ((List.range (maxLevel + 1)).map liveAt).max?.getD 0
    exclusions }

/-- The buffers that take part in the planning. -/
def analyzeLiveness (schedule : Schedule) (itemLevels : List Nat) (outputBufferIds : List Nat)
    (mode : PlannerMode) : Option PlannerInput := do
  let excluded := collectExcludedBufferIds schedule
  let st ← schedule.items.zipIdx.foldlM (visitItem itemLevels outputBufferIds excluded)
    ⟨∅, [], [], []⟩
  some ⟨st.liveness, st.occurrences, livenessMetrics mode st.liveness st.exclusions⟩

/-! ## Event timeline -/

/-- The sort key: frees precede allocs at one level, ids break the remaining ties. -/
def BufferEvent.le (e e' : BufferEvent) : Bool :=
  e.timestep < e'.timestep || (e.timestep == e'.timestep &&
    ((!e.isAlloc && e'.isAlloc) || (e.isAlloc == e'.isAlloc && decide (e.bufferId ≤ e'.bufferId))))

/-- A buffer is free from the level after its last use. -/
def bufferEvents (id : Nat) (info : BufferLiveness) : List BufferEvent :=
  [⟨info.firstLevel, true, id⟩, ⟨info.lastLevel + 1, false, id⟩]

/-- The events of all buffers in time order. -/
def buildEventTimeline (liveness : Liveness) : List BufferEvent :=
  (liveness.entries.flatMap fun e => bufferEvents e.1 e.2).insertionSort (·.le ·)

/-! ## Pool-based allocation -/

/-- The pools, and the storage that each buffer has. -/
structure PoolState where
  /-- Pools of returned buffers, the most recently returned one first. -/
  freePools : BufferPoolKey → List Buffer
  chosenById : Nat → Option Buffer
  activeBuffers : Nat → Option Buffer
  memorySaved : Nat
  buffersReused : Nat

/-- Empty pools. -/
def PoolState.init : PoolState := ⟨fun _ => [], fun _ => none, fun _ => none, 0, 0⟩

/-- A buffer takes storage from its pool, or gives it back. -/
def processEvent (liveness : Liveness) (st : PoolState) (event : BufferEvent) : PoolState :=
  match liveness.lookup event.bufferId with
  | none => st
  | some info =>
    let k := info.poolKey
    if event.isAlloc then
      match st.freePools k with
      | reused :: rest =>
        { freePools := Function.update st.freePools k rest
          chosenById := Function.update st.chosenById event.bufferId (some reused)
          activeBuffers := Function.update st.activeBuffers event.bufferId (some reused)
          memorySaved := st.memorySaved + k.size
          buffersReused := st.buffersReused + 1 }
      | [] =>
        { st with
          chosenById := Function.update st.chosenById event.bufferId (some info.proto)
          activeBuffers := Function.update st.activeBuffers event.bufferId (some info.proto) }
    else
      match st.activeBuffers event.bufferId with
      | some buffer =>
        { st with
          freePools := Function.update st.freePools k (buffer :: st.freePools k)
          activeBuffers := Function.update st.activeBuffers event.bufferId none }
      | none => st

/-- Replacement for one slot: the chosen buffer when it is another handle. -/
def replacement (st : PoolState) (occ : BufferKey × Nat) : Option (BufferKey × Buffer) :=
  match st.chosenById occ.2 with
  | some chosen => if chosen.id ≠ occ.2 then some (occ.1, chosen) else none
  | none => none

/-- The replacements after all events, with the memory they save. -/
def processEvents (events : List BufferEvent) (liveness : Liveness)
    (occurrences : List (BufferKey × Nat)) : List (BufferKey × Buffer) × Nat × Nat × Nat :=
  let st := events.foldl (processEvent liveness) PoolState.init
  let chosen := liveness.entries.filterMap fun e => st.chosenById e.1
  let physicalBytes := ((chosen.map fun b => (b.id, b.size)).dedup.map (·.2)).sum
  (occurrences.filterMap (replacement st), st.memorySaved, st.buffersReused, physicalBytes)

/-! ## Arena-based allocation -/

/-- Arena identifier: one arena per device and class of memory. -/
abbrev LaneKey := DeviceSpec × BufferSpec

/-- The arena a buffer belongs to. -/
def Buffer.laneKey (b : Buffer) : LaneKey := (b.data.device, b.spec)

/-- The allocator of each lane, the offsets it gave and its highest end. -/
structure ArenaState where
  tlsfs : LaneKey → Option Tlsf.TlsfAllocator
  offsets : Nat → Option Nat
  peaks : AList fun _ : LaneKey => Nat

/-- The allocator of a lane, created on first use. -/
def laneAllocator (arenaBudget : Nat) (st : ArenaState) (lane : LaneKey) :
    Option Tlsf.TlsfAllocator :=
  match st.tlsfs lane with
  | some a => some a
  | none => Tlsf.TlsfAllocator.new arenaBudget 0 minBlockSize 32

/-- One event of the arena timeline.  `.error ()` abandons the rewrite. -/
def arenaEvent (arenaBudget : Nat) (liveness : Liveness) (st : ArenaState) (event : BufferEvent) :
    Option (Except Unit ArenaState) := do
  let info ← liveness.lookup event.bufferId
  let lane := info.proto.laneKey
  let alloc ← laneAllocator arenaBudget st lane
  if event.isAlloc then
    let req ← roundUp info.proto.size minBlockSize
    let (alloc, r) ← alloc.alloc req 1
    match r with
    | .error _ => some (.error ())
    | .ok off =>
      let usedEnd ← checkedAdd off info.proto.size
      let peak := (st.peaks.lookup lane).getD 0
      some (.ok
        { tlsfs := Function.update st.tlsfs lane (some alloc)
          offsets := Function.update st.offsets event.bufferId (some off)
          peaks := st.peaks.insert lane (max peak usedEnd) })
  else
    match st.offsets event.bufferId with
    | none => some (.ok { st with tlsfs := Function.update st.tlsfs lane (some alloc) })
    | some off => do
      let (alloc, r) ← alloc.free off
      match r with
      | .error _ => some (.error ())
      | .ok _ => some (.ok { st with tlsfs := Function.update st.tlsfs lane (some alloc) })

/-- The timeline loop; the first error stops it. -/
def arenaLoop (arenaBudget : Nat) (liveness : Liveness) :
    ArenaState → List BufferEvent → Option (Except Unit ArenaState)
  | st, [] => some (.ok st)
  | st, e :: rest => do
    match ← arenaEvent arenaBudget liveness st e with
    | .error _ => some (.error ())
    | .ok st => arenaLoop arenaBudget liveness st rest

/-- One arena buffer per lane with a non-zero peak; handle ids are minted from `nextId` on. -/
def buildArenas : List (Sigma fun _ : LaneKey => Nat) → Nat → Option (List (LaneKey × Buffer))
  | [], _ => some []
  | ⟨lane, peak⟩ :: rest, nextId =>
    if peak = 0 then buildArenas rest nextId
    else do
      let arenaSize ← roundUp peak minBlockSize
      let arena := Buffer.new nextId lane.1 (.scalar .uint8) [arenaSize] lane.2
      let arenas ← buildArenas rest (nextId + 1)
      some ((lane, arena) :: arenas)

/-- The views of all planned slots; one failing view abandons the whole rewrite. -/
def buildViews (liveness : Liveness) (offsets : Nat → Option Nat)
    (arenas : List (LaneKey × Buffer)) :
    List (BufferKey × Nat) → Nat → Option (Except Unit (List (BufferKey × Buffer)))
  | [], _ => some (.ok [])
  | (key, bufId) :: rest, nextId =>
    match offsets bufId with
    | none => buildViews liveness offsets arenas rest nextId
    | some offset => do
      let info ← liveness.lookup bufId
      match arenas.lookup info.proto.laneKey with
      | none => buildViews liveness offsets arenas rest nextId
      | some arena =>
        match ← arena.view nextId offset info.proto.size with
        | .error _ => some (.error ())
        | .ok view =>
          match ← buildViews liveness offsets arenas rest (nextId + 1) with
          | .error _ => some (.error ())
          | .ok views => some (.ok ((key, view) :: views))

/-- A sum that aborts on overflow. -/
def checkedSum (xs : List Nat) : Option Nat := xs.foldlM checkedAdd 0

/-- The plan that replaces nothing. -/
def emptyResult (metrics : MemoryPlannerMetrics) : MemoryPlannerResult :=
  ⟨[], 0, 0, { metrics with physicalBytes := metrics.logicalBytes }⟩

/-- `memory_plan_arena`; new handles take ids from `nextId` on. -/
def memoryPlanArena (schedule : Schedule) (itemLevels : List Nat) (outputBufferIds : List Nat)
    (nextId : Nat) : Option MemoryPlannerResult := do
  let input ← analyzeLiveness schedule itemLevels outputBufferIds .arena
  if input.liveness.entries.isEmpty then
    some (emptyResult input.metrics)
  else
    let rounded ← input.liveness.values.mapM fun info => roundUp info.proto.size minBlockSize
    let totalBytes ← checkedSum rounded
    let arenaBudget := max (min (totalBytes * 2) (wordSize - 1)) minBlockSize
    match ← arenaLoop arenaBudget input.liveness ⟨fun _ => none, fun _ => none, ∅⟩
      (buildEventTimeline input.liveness) with
    | .error _ => some (emptyResult input.metrics)
    | .ok st => do
      let arenas ← buildArenas st.peaks.entries nextId
      match ← buildViews input.liveness st.offsets arenas input.occurrences
        (nextId + arenas.length) with
      | .error _ => some (emptyResult input.metrics)
      | .ok views => do
        let arenaSizes ← st.peaks.entries.mapM fun e => roundUp e.2 minBlockSize
        let arenaTotal ← checkedSum arenaSizes
        some
          { bufferReplace := views
            memorySaved := totalBytes - arenaTotal
            buffersReused := views.length
            metrics := { input.metrics with
              arenaCommittedBytes := arenaTotal
              physicalBytes := arenaTotal
              fragmentationBytes := arenaTotal - input.metrics.logicalPeakBytes
              reusedAllocations := input.metrics.logicalAllocations - arenas.length
              reusedBytes := input.metrics.logicalBytes - arenaTotal } }

/-! ## Entry point -/

/-- `memory_planner`. -/
def memoryPlanner (schedule : Schedule) (itemLevels : List Nat) (outputBufferIds : List Nat)
    (mode : PlannerMode) (nextId : Nat) : Option MemoryPlannerResult := do
  if schedule.items.isEmpty then
    some ⟨[], 0, 0, { mode }⟩
  else if mode = .arena then
    memoryPlanArena schedule itemLevels outputBufferIds nextId
  else
    let input ← analyzeLiveness schedule itemLevels outputBufferIds mode
    if mode = .disabled then
      some (emptyResult input.metrics)
    else if input.liveness.entries.isEmpty then
      some ⟨[], 0, 0, input.metrics⟩
    else
      let events := buildEventTimeline input.liveness
      let (bufferReplace, memorySaved, buffersReused, physicalBytes) :=
        processEvents events input.liveness input.occurrences
      some ⟨bufferReplace, memorySaved, buffersReused,
        { input.metrics with
          physicalBytes
          reusedAllocations := buffersReused
          reusedBytes := input.metrics.logicalBytes - physicalBytes }⟩

end Svod.MemoryPlanner
