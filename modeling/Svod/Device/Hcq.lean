/-
  Svod.Device.Hcq

  The device-aware lane scheduler of the host command queues.

  `scheduleDeviceLanes` partitions neutral operations by device queue, replaces
  a copy whose endpoints the lane cannot reach by two legs through a host stage,
  numbers the operations of each lane, makes each one wait for the latest
  hazardous value of every other lane, merges neighbours of one lane while the
  limits allow it, and at last moves every wait to a value that is published.

  A `HashMap` keyed by lane is an association list here; what the source
  collects from one it sorts by lane before use, and so do these definitions.
-/

import Mathlib.Algebra.Order.Ring.Nat
import Mathlib.Data.List.Sort
import Svod.DType

namespace Svod.Device.Hcq

/-! ## Topology -/

/-- The queues of a device, numbered within their class. -/
inductive QueueKind where
  | compute (n : ℕ)
  | copy (n : ℕ)
  deriving DecidableEq, Repr

/-- A lane: one queue of one device. -/
structure DeviceQueue where
  device : DeviceSpec
  queue : QueueKind
  deriving DecidableEq, Repr

/-- The bytes from `start` to `stop` of a buffer. -/
structure TopologyResource where
  id : ℕ
  owner : DeviceSpec
  start : ℕ
  stop : ℕ
  deriving DecidableEq, Repr

/-- The two resources are one buffer and their byte ranges meet. -/
def TopologyResource.overlaps (a b : TopologyResource) : Bool :=
  a.id == b.id && a.owner == b.owner && decide (a.start < b.stop) && decide (b.start < a.stop)

/-- `overlaps` misses no shared byte. -/
theorem overlaps_of_byte {a b : TopologyResource} (byte : ℕ) (hid : a.id = b.id)
    (howner : a.owner = b.owner) (ha : a.start ≤ byte ∧ byte < a.stop)
    (hb : b.start ≤ byte ∧ byte < b.stop) : a.overlaps b = true := by
  unfold TopologyResource.overlaps
  simp only [Bool.and_eq_true, beq_iff_eq, decide_eq_true_eq]
  refine ⟨⟨⟨hid, howner⟩, ?_⟩, ?_⟩
  · omega
  · omega

/-- A kernel, or a copy of some bytes. -/
inductive TopologyOperationKind where
  | execute
  | copy (src dst : TopologyResource) (bytes : ℕ)
  deriving DecidableEq, Repr

/-- An operation with what it reads and writes. -/
structure TopologyOperation where
  operation : ℕ
  lane : DeviceQueue
  reads : List TopologyResource
  writes : List TopologyResource
  kind : TopologyOperationKind
  deriving DecidableEq, Repr

/-- A copy in one piece, or one leg of a copy through the host. -/
inductive CopyLeg where
  | direct
  | toHost
  | fromHost
  deriving DecidableEq, Repr

/-- An operation, or one leg of it, as a lane runs it. -/
structure TopologyCommand where
  operation : ℕ
  copyLeg : Option CopyLeg
  deriving DecidableEq, Repr

/-- A wait for a value of a lane. -/
structure LaneWait where
  lane : DeviceQueue
  value : ℕ
  deriving DecidableEq, Repr

/-- What a lane waits for, runs and then publishes. -/
structure LaneSubmission where
  lane : DeviceQueue
  waits : List LaneWait
  commands : List TopologyCommand
  signalValue : ℕ
  deriving DecidableEq, Repr

/-- The bounds of a merged submission; zero is no bound. -/
structure QueueMergeLimits where
  maxSubmissions : ℕ
  maxCommands : ℕ
  deriving DecidableEq, Repr

/-! ## Expansion into legs -/

/-- An operation, or one leg of a copy. -/
structure Expanded where
  operation : ℕ
  lane : DeviceQueue
  reads : List TopologyResource
  writes : List TopologyResource
  leg : Option CopyLeg
  deriving DecidableEq, Repr

/-- The command of a leg. -/
def Expanded.command (e : Expanded) : TopologyCommand :=
  { operation := e.operation, copyLeg := e.leg }

def u64Max : ℕ := 2 ^ 64 - 1

/-- The host resource a staged copy goes through. -/
def stage (operation bytes : ℕ) : TopologyResource :=
  { id := u64Max - operation, owner := .cpu, start := 0, stop := max bytes 1 }

/-- A copy with an endpoint out of reach becomes two legs. -/
def expandOp (canAccess : DeviceSpec → DeviceSpec → Bool) (op : TopologyOperation) :
    List Expanded :=
  match op.kind with
  | .copy src dst bytes =>
    if !(canAccess op.lane.device src.owner && canAccess op.lane.device dst.owner) then
      [{ operation := op.operation
         lane := { device := src.owner, queue := .copy 0 }
         reads := [src]
         writes := [stage op.operation bytes]
         leg := some .toHost },
       { operation := op.operation
         lane := { device := dst.owner, queue := .copy 0 }
         reads := [stage op.operation bytes]
         writes := [dst]
         leg := some .fromHost }]
    else
      [{ operation := op.operation
         lane := op.lane
         reads := [src]
         writes := [dst]
         leg := some .direct }]
  | .execute =>
    [{ operation := op.operation
       lane := op.lane
       reads := op.reads
       writes := op.writes
       leg := none }]

/-- The legs of all operations, in order. -/
def expand (canAccess : DeviceSpec → DeviceSpec → Bool) (operations : List TopologyOperation) :
    List Expanded :=
  operations.flatMap (expandOp canAccess)

/-! ## Hazards and raw submissions -/

/-- Some resource of one list overlaps one of the other. -/
def anyOverlap (xs ys : List TopologyResource) : Bool :=
  xs.any fun x => ys.any fun y => x.overlaps y

/-- Read after write, write after read or write after write. -/
def hazard (a b : Expanded) : Bool :=
  anyOverlap a.writes b.reads || anyOverlap a.reads b.writes || anyOverlap a.writes b.writes

/-- `entry(lane).and_modify(max).or_insert(value)`. -/
def noteWait (waits : List LaneWait) (w : LaneWait) : List LaneWait :=
  match waits with
  | [] => [w]
  | w' :: rest =>
    if w'.lane = w.lane then { lane := w'.lane, value := max w'.value w.value } :: rest
    else w' :: noteWait rest w

/-- Compute queues before copy queues, each by number. -/
def QueueKind.sortKey : QueueKind → ℕ × ℕ
  | .compute n => (0, n)
  | .copy n => (1, n)

/-- The order of the sort key `(device name, queue class, queue number)`. -/
def laneLe (a b : LaneWait) : Prop :=
  a.lane.device.canonicalize < b.lane.device.canonicalize ∨
    (a.lane.device.canonicalize = b.lane.device.canonicalize ∧
      (a.lane.queue.sortKey.1 < b.lane.queue.sortKey.1 ∨
        (a.lane.queue.sortKey.1 = b.lane.queue.sortKey.1 ∧
          a.lane.queue.sortKey.2 ≤ b.lane.queue.sortKey.2)))

instance : DecidableRel laneLe := fun a b => by
  unfold laneLe
  infer_instance

/-- The waits in the order of their lanes. -/
def sortWaits (waits : List LaneWait) : List LaneWait :=
  waits.insertionSort laneLe

/-- The latest hazardous value of each other lane. -/
def latestHazards (prior : List (Expanded × ℕ)) (op : Expanded) : List LaneWait :=
  prior.foldl
    (fun latest producer =>
      if producer.1.lane ≠ op.lane ∧ hazard producer.1 op = true then
        noteWait latest { lane := producer.1.lane, value := producer.2 }
      else latest)
    []

/-- The last value of each lane, the legs numbered so far and their submissions. -/
structure RawState where
  sequence : DeviceQueue → ℕ
  prior : List (Expanded × ℕ)
  raw : List LaneSubmission

def RawState.initial : RawState := { sequence := fun _ => 0, prior := [], raw := [] }

/-- One turn of the loop that numbers the legs and finds their waits. -/
def rawStep (s : RawState) (op : Expanded) : RawState :=
  let value := s.sequence op.lane + 1
  { sequence := Function.update s.sequence op.lane value
    prior := s.prior ++ [(op, value)]
    raw := s.raw ++ [{ lane := op.lane
                       waits := sortWaits (latestHazards s.prior op)
                       commands := [op.command]
                       signalValue := value }] }

/-- One submission for each leg. -/
def rawSubmissions (expanded : List Expanded) : List LaneSubmission :=
  (expanded.foldl rawStep RawState.initial).raw

/-! ## Merging -/

/-- Append one raw submission to the last merged one. -/
def mergeWait (waits : List LaneWait) (w : LaneWait) : List LaneWait :=
  if waits.any fun w' => decide (w'.lane = w.lane) && decide (w.value ≤ w'.value) then waits
  else (waits.filter fun w' => decide (w'.lane ≠ w.lane)) ++ [w]

/-- Two neighbours of a lane in one: the value is the later one. -/
def appendSubmission (last submission : LaneSubmission) : LaneSubmission :=
  { lane := last.lane
    waits := submission.waits.foldl mergeWait last.waits
    commands := last.commands ++ submission.commands
    signalValue := submission.signalValue }

/-- Both are of one lane, and the limits leave room. -/
def canAppend (limits : QueueMergeLimits) (last : LaneSubmission) (count : ℕ)
    (submission : LaneSubmission) : Bool :=
  decide (last.lane = submission.lane) &&
    (limits.maxSubmissions == 0 || decide (count < limits.maxSubmissions)) &&
    (limits.maxCommands == 0 ||
      decide (last.commands.length + submission.commands.length ≤ limits.maxCommands))

/-- One turn of the merge loop.  `merged` holds each merged submission with its count, the last
    one first. -/
def mergeStep (limits : QueueMergeLimits) (merged : List (LaneSubmission × ℕ))
    (submission : LaneSubmission) : List (LaneSubmission × ℕ) :=
  match merged with
  | [] => [(submission, 1)]
  | (last, count) :: rest =>
    if canAppend limits last count submission then
      (appendSubmission last submission, count + 1) :: rest
    else (submission, 1) :: (last, count) :: rest

/-- Neighbours of a lane merged as far as the limits allow. -/
def mergeSubmissions (limits : QueueMergeLimits) (raw : List LaneSubmission) :
    List LaneSubmission :=
  ((raw.foldl (mergeStep limits) []).reverse).map Prod.fst

/-! ## Published waits -/

/-- The first published value of the lane that covers `w`, or `w` itself. -/
def publishedValue (merged : List LaneSubmission) (w : LaneWait) : ℕ :=
  match merged.find? fun producer =>
      decide (producer.lane = w.lane) && decide (w.value ≤ producer.signalValue) with
  | some producer => producer.signalValue
  | none => w.value

/-- Every wait moves to a published value. -/
def rewriteWaits (merged : List LaneSubmission) (submission : LaneSubmission) : LaneSubmission :=
  { submission with
    waits := sortWaits (submission.waits.foldl
      (fun waits w => noteWait waits { lane := w.lane, value := publishedValue merged w }) []) }

/-- The submissions of all lanes. -/
def scheduleDeviceLanes (operations : List TopologyOperation) (limits : QueueMergeLimits)
    (canAccess : DeviceSpec → DeviceSpec → Bool) : List LaneSubmission :=
  let merged := mergeSubmissions limits (rawSubmissions (expand canAccess operations))
  merged.map (rewriteWaits merged)

/-! ## Linked plans -/

/-- Half of the 32-bit wait range. -/
def timelineRollover : ℕ := 2 ^ 31

/-- A signal and the value it reaches. -/
structure TimelinePoint where
  signalAddress : ℕ
  value : ℕ
  deriving DecidableEq, Repr

/-- A timeline with a shadow signal; `active` selects the first or the second address. -/
structure EpochTimeline where
  signals : ℕ × ℕ
  active : Bool
  next : ℕ
  pendingReset : Option ℕ
  deriving DecidableEq, Repr

/-- A timeline before its first point. -/
def EpochTimeline.new (signals : ℕ × ℕ) : EpochTimeline :=
  { signals := signals, active := false, next := 1, pendingReset := none }

/-- The signal in use. -/
def EpochTimeline.address (t : EpochTimeline) : ℕ :=
  if t.active then t.signals.2 else t.signals.1

/-- Switch to the other signal once the values reach the rollover. -/
def EpochTimeline.rollover (t : EpochTimeline) : EpochTimeline :=
  if timelineRollover < t.next then
    let t' := { t with active := !t.active, next := 1 }
    { t' with pendingReset := some t'.address }
  else t

/-- The next point of a timeline. -/
def EpochTimeline.reserve (t : EpochTimeline) : TimelinePoint × EpochTimeline :=
  let t' := t.rollover
  ({ signalAddress := t'.address, value := t'.next }, { t' with next := t'.next + 1 })

/-- The timeline point of a value of a lane. -/
structure TimelineBinding where
  lane : DeviceQueue
  logicalValue : ℕ
  point : TimelinePoint
  deriving DecidableEq, Repr

/-- The submissions with their timeline points. -/
structure SemanticLinkedPlan where
  lanes : List LaneSubmission
  bindings : List TimelineBinding
  deriving DecidableEq, Repr

/-- `lane` waits for a value of `waitLane` that no submission publishes. -/
inductive LinkError where
  | unpublishedWait (lane waitLane : DeviceQueue) (value : ℕ)
  deriving DecidableEq, Repr

/-- One turn of the loop that reserves a timeline point for each submission. -/
def bindStep (timelineSignals : DeviceQueue → ℕ × ℕ)
    (s : (DeviceQueue → Option EpochTimeline) × List TimelineBinding)
    (submission : LaneSubmission) :
    (DeviceQueue → Option EpochTimeline) × List TimelineBinding :=
  let timeline :=
    (s.1 submission.lane).getD (EpochTimeline.new (timelineSignals submission.lane))
  (Function.update s.1 submission.lane (some timeline.reserve.2),
    s.2 ++ [{ lane := submission.lane
              logicalValue := submission.signalValue
              point := timeline.reserve.1 }])

/-- A timeline point for every submission. -/
def timelineBindings (timelineSignals : DeviceQueue → ℕ × ℕ) (lanes : List LaneSubmission) :
    List TimelineBinding :=
  (lanes.foldl (bindStep timelineSignals) (fun _ => none, [])).2

/-- Some submission publishes the value. -/
def isBound (bindings : List TimelineBinding) (w : LaneWait) : Bool :=
  bindings.any fun binding =>
    decide (binding.lane = w.lane) && decide (binding.logicalValue = w.value)

/-- The first wait without a binding, with the lane that waits. -/
def firstUnpublished (bindings : List TimelineBinding) (lanes : List LaneSubmission) :
    Option LinkError :=
  lanes.findSome? fun submission =>
    (submission.waits.find? fun w => !isBound bindings w).map fun w =>
      .unpublishedWait submission.lane w.lane w.value

/-- A plan, unless a wait has no submission behind it. -/
def fromLaneSubmissions (lanes : List LaneSubmission)
    (timelineSignals : DeviceQueue → ℕ × ℕ) : Except LinkError SemanticLinkedPlan :=
  let bindings := timelineBindings timelineSignals lanes
  match firstUnpublished bindings lanes with
  | some err => .error err
  | none => .ok { lanes := lanes, bindings := bindings }

end Svod.Device.Hcq
