/-
  Svod.Device.NativeSubmissions

  Lowering of a linked plan to the submissions of one device
  (`SemanticLinkedPlan::native_submissions` of `device/src/hcq.rs`).

  Every lane entry becomes a submission of its own queue that waits for the
  signals of its producers, executes its operation and stores its own signal;
  a finalizer behind them waits for the last entry of every other lane.  A
  signal is named by a slot: slot 0 is the state of the device before the plan,
  slot `i + 1` belongs to entry `i`.  What a slot stands for is patched in at
  replay.

  Of the commands and patch sources of the source these are the ones a native
  submission can hold.  A `HashMap` filled from a list keeps the last entry of a
  key (`lastIndex`).
-/

import Svod.Device.Hcq
import Svod.Lib.SignalQueues

namespace Svod.Device.Native

open Hcq

/-! ## Submissions -/

/-- Who has to see a store: the same queue, or every observer. -/
inductive StoreScope where
  | queue
  | system
deriving DecidableEq, Repr

/-- What a queue can be told to do. -/
inductive Command where
  | wait (signalAddress value : ℕ)
  | memoryBarrier
  | execute (operation : ℕ)
  | store (dst value : ℕ) (scope : StoreScope)
deriving DecidableEq, Repr

/-- A field of a command that is known only at replay. -/
inductive CommandField where
  | waitAddress
  | waitValue
  | storeDst
  | storeValue
deriving DecidableEq, Repr

/-- The position of a field in the source's enumeration. -/
def CommandField.rank : CommandField → ℕ
  | .waitAddress => 0
  | .waitValue => 1
  | .storeDst => 13
  | .storeValue => 14

/-- What a field is filled with: the signal of a slot, or its value. -/
inductive SystemField where
  | timelineSignal (slot : ℕ)
  | timelineValue (slot : ℕ)
deriving DecidableEq, Repr

/-- Field `field` of command `command` takes its value from `source`. -/
structure CommandPatch where
  command : ℕ
  field : CommandField
  source : SystemField
deriving DecidableEq, Repr

/-- The commands of one submission to a queue, with the fields left to fill. -/
structure Submission where
  queue : QueueKind
  commands : List Command
  patches : List CommandPatch
deriving DecidableEq, Repr

/-- A submission and the queue it goes to. -/
structure SemanticLinkedSubmission where
  lane : DeviceQueue
  submission : Submission
deriving DecidableEq, Repr

/-- How the lowering and the replay fail. -/
inductive NativeError where
  /-- "native HCQ lowering requires unmerged lane submissions" -/
  | merged
  /-- "native HCQ lowering requires one concrete device" -/
  | severalDevices
  /-- "native HCQ wait has no producer" -/
  | noProducer (w : LaneWait)
  /-- "HCQ patch references command .., submission has .. commands" -/
  | noCommand (command count : ℕ)
  /-- "HCQ command .. field .. is bound twice" -/
  | boundTwice (command : ℕ) (field : CommandField)
  /-- "HCQ semantic lane .. disagrees with submission queue .." -/
  | queueDisagrees (lane queue : QueueKind)
  /-- "HCQ patch value missing for .." -/
  | valueMissing (source : SystemField)
  /-- The field is not one of the command's. -/
  | fieldInvalid (command : Command) (field : CommandField)
deriving DecidableEq, Repr

/-- An empty submission. -/
def Submission.new (queue : QueueKind) : Submission := { queue, commands := [], patches := [] }

/-- One more command. -/
def Submission.push (s : Submission) (command : Command) : Submission :=
  { s with commands := s.commands ++ [command] }

/-- The derived order of the patches; no two of a submission agree in command and field. -/
def patchLe (a b : CommandPatch) : Prop :=
  a.command < b.command ∨ (a.command = b.command ∧ a.field.rank ≤ b.field.rank)

instance : DecidableRel patchLe := fun a b => by
  unfold patchLe
  infer_instance

/-- Leaves a field of a command to `source`, once. -/
def Submission.bind (s : Submission) (command : ℕ) (field : CommandField) (source : SystemField) :
    Except NativeError Submission :=
  if s.commands.length ≤ command then .error (.noCommand command s.commands.length)
  else if s.patches.any fun p => decide (p.command = command) && decide (p.field = field) then
    .error (.boundTwice command field)
  else .ok { s with patches := List.insertionSort patchLe (s.patches ++ [⟨command, field, source⟩]) }

/-- The queue of a submission has to be that of its lane. -/
def newForLane (lane : DeviceQueue) (submission : Submission) :
    Except NativeError SemanticLinkedSubmission :=
  if lane.queue ≠ submission.queue then .error (.queueDisagrees lane.queue submission.queue)
  else .ok { lane, submission }

/-! ## Lowering -/

/-- `bind_point`: both fields of a command at slot `slot`. -/
def Submission.bindPoint (s : Submission) (command slot : ℕ) (store : Bool) :
    Except NativeError Submission := do
  let address := if store then CommandField.storeDst else CommandField.waitAddress
  let value := if store then CommandField.storeValue else CommandField.waitValue
  let s ← s.bind command address (.timelineSignal slot)
  s.bind command value (.timelineValue slot)

/-- A wait for the signal of a slot. -/
def Submission.pushWait (s : Submission) (slot : ℕ) : Except NativeError Submission :=
  (s.push (.wait 0 0)).bindPoint s.commands.length slot false

/-- A store to the signal of a slot. -/
def Submission.pushStore (s : Submission) (slot : ℕ) (scope : StoreScope) :
    Except NativeError Submission :=
  (s.push (.store 0 0 scope)).bindPoint s.commands.length slot true

/-- `index as u32 + 1`. -/
def slotOf (index : ℕ) : ℕ := (index % 2 ^ 32 + 1) % 2 ^ 32

/-- The last position at which `p` holds. -/
def lastIndex (p : LaneSubmission → Bool) (lanes : List LaneSubmission) : Option ℕ :=
  (lanes.zipIdx.reverse.find? fun e => p e.1).map Prod.snd

/-- The entry publishes the value that `w` waits for. -/
def publishes (w : LaneWait) (submission : LaneSubmission) : Bool :=
  decide (submission.lane = w.lane) && decide (submission.signalValue = w.value)

/-- The entry behind a wait. -/
def producerOf (lanes : List LaneSubmission) (w : LaneWait) : Except NativeError ℕ :=
  match lastIndex (publishes w) lanes with
  | some index => .ok index
  | none => .error (.noProducer w)

/-- The last entry of each lane. -/
def latest (lanes : List LaneSubmission) : List (DeviceQueue × ℕ) :=
  (lanes.map LaneSubmission.lane).dedup.filterMap fun lane =>
    (lastIndex (fun submission => decide (submission.lane = lane)) lanes).map fun index =>
      (lane, index)

/-- The entries whose store some wait of another submission is bound to. -/
def publishedEntries (lanes : List LaneSubmission) (finalLane : DeviceQueue) :
    Except NativeError (List ℕ) := do
  let produced ← (lanes.flatMap LaneSubmission.waits).mapM (producerOf lanes)
  .ok (produced ++ ((latest lanes).filter fun e => e.1 ≠ finalLane).map Prod.snd)

/-- The first submission of a lane waits for the device. -/
def openSubmission (queue : QueueKind) (first : Bool) : Except NativeError Submission :=
  if first then ((Submission.new queue).push .memoryBarrier).pushWait 0
  else .ok (Submission.new queue)

/-- The wait of an entry, as one for the slot of its producer. -/
def pushProducerWait (lanes : List LaneSubmission) (submission : Submission) (w : LaneWait) :
    Except NativeError Submission := do
  let producer ← producerOf lanes w
  submission.pushWait (slotOf producer)

/-- The submission of one lane entry. -/
def entrySubmission (lanes : List LaneSubmission) (published : List ℕ) (first : Bool) (index : ℕ)
    (lane : LaneSubmission) : Except NativeError SemanticLinkedSubmission := do
  let submission ← openSubmission lane.lane.queue first
  let submission ← lane.waits.foldlM (pushProducerWait lanes) submission
  let submission :=
    if lane.waits.isEmpty then submission else submission.push .memoryBarrier
  -- `lane.commands[0]`: the lowering has refused an entry of another length
  let submission := submission.push (.execute ((lane.commands.map (·.operation)).headD 0))
  let scope := if published.contains index then StoreScope.system else StoreScope.queue
  let submission ← submission.pushStore (slotOf index) scope
  newForLane lane.lane submission

/-- One turn of the loop over the entries: the lanes used so far, and the submissions. -/
def entryStep (lanes : List LaneSubmission) (published : List ℕ)
    (s : List DeviceQueue × List SemanticLinkedSubmission) (e : LaneSubmission × ℕ) :
    Except NativeError (List DeviceQueue × List SemanticLinkedSubmission) := do
  let first := !s.1.contains e.1.lane
  let submission ← entrySubmission lanes published first e.2 e.1
  .ok (if first then e.1.lane :: s.1 else s.1, s.2 ++ [submission])

/-- The order by queue class, then by queue number. -/
def latestLe (a b : DeviceQueue × ℕ) : Prop :=
  a.1.queue.sortKey.1 < b.1.queue.sortKey.1 ∨
    (a.1.queue.sortKey.1 = b.1.queue.sortKey.1 ∧ a.1.queue.sortKey.2 ≤ b.1.queue.sortKey.2)

instance : DecidableRel latestLe := fun a b => by
  unfold latestLe
  infer_instance

/-- The finalizer waits for the last entry of every lane but its own. -/
def pushLatestWait (finalLane : DeviceQueue) (finalizer : Submission) (e : DeviceQueue × ℕ) :
    Except NativeError Submission :=
  if e.1 ≠ finalLane then finalizer.pushWait (slotOf e.2) else .ok finalizer

/-- The last submission, which signals that the plan is done. -/
def finalizerSubmission (lanes : List LaneSubmission) (used : List DeviceQueue)
    (finalLane : DeviceQueue) : Except NativeError SemanticLinkedSubmission := do
  let finalizer ← openSubmission finalLane.queue (!used.contains finalLane)
  let finalizer ← ((latest lanes).insertionSort latestLe).foldlM (pushLatestWait finalLane) finalizer
  let finalizer ← finalizer.pushStore (slotOf lanes.length) .system
  newForLane finalLane finalizer

/-- The queue that the finalizer runs on. -/
def finalLaneOf (device : DeviceSpec) : DeviceQueue := { device, queue := .compute 0 }

/-- One submission for each lane entry, and the finalizer. -/
def nativeSubmissions (plan : SemanticLinkedPlan) :
    Except NativeError (List SemanticLinkedSubmission) :=
  match plan.lanes with
  | [] => .ok []
  | firstLane :: rest =>
    let lanes := firstLane :: rest
    if lanes.any fun lane => lane.commands.length != 1 then .error .merged
    else if lanes.any fun lane => lane.lane.device != firstLane.lane.device then
      .error .severalDevices
    else do
      let finalLane := finalLaneOf firstLane.lane.device
      let published ← publishedEntries lanes finalLane
      let (used, submissions) ← lanes.zipIdx.foldlM (entryStep lanes published) ([], [])
      let finalizer ← finalizerSubmission lanes used finalLane
      .ok (submissions ++ [finalizer])

/-! ## Replay -/

/-- A command with one field filled in. -/
def patchCommandField (command : Command) (field : CommandField) (value : ℕ) :
    Except NativeError Command :=
  match command, field with
  | .wait _ target, .waitAddress => .ok (.wait value target)
  | .wait signalAddress _, .waitValue => .ok (.wait signalAddress value)
  | .store _ stored scope, .storeDst => .ok (.store value stored scope)
  | .store dst _ scope, .storeValue => .ok (.store dst value scope)
  | command, field => .error (.fieldInvalid command field)

/-- One patch applied to the commands. -/
def patchStep (system : SystemField → Option ℕ) (commands : List Command) (patch : CommandPatch) :
    Except NativeError (List Command) :=
  match system patch.source, commands[patch.command]? with
  | some value, some command => do
    let command ← patchCommandField command patch.field value
    .ok (commands.set patch.command command)
  | none, _ => .error (.valueMissing patch.source)
  | some _, none => .error (.noCommand patch.command commands.length)

/-- `SemanticLinkedSubmission::patch` on a fresh replay buffer. -/
def SemanticLinkedSubmission.patch (s : SemanticLinkedSubmission)
    (system : SystemField → Option ℕ) : Except NativeError (List Command) :=
  s.submission.patches.foldlM (patchStep system) s.submission.commands

/-- The system values of a replay that resolves slot `slot` to `points slot`. -/
def systemValues (points : ℕ → TimelinePoint) : SystemField → Option ℕ
  | .timelineSignal slot => some (points slot).signalAddress
  | .timelineValue slot => some (points slot).value

open Svod.Lib.SignalQueues in
/-- What a command does to the signal memory. -/
def Command.instr : Command → Instr ℕ
  | .wait signalAddress value => .wait signalAddress value
  | .store dst value _ => .store dst value
  | .memoryBarrier => .work
  | .execute _ => .work

open Svod.Lib.SignalQueues in
/-- A submission with its slots resolved, as its queue executes it. -/
def SemanticLinkedSubmission.replay (points : ℕ → TimelinePoint) (s : SemanticLinkedSubmission) :
    Except NativeError (Batch DeviceQueue ℕ) := do
  let commands ← s.patch (systemValues points)
  .ok { queue := s.lane, instrs := commands.map Command.instr }

/-! ## What the lowering promises -/

/-- A command with the slot it is bound to. -/
inductive BoundCommand where
  | wait (slot : ℕ)
  | memoryBarrier
  | execute (operation : ℕ)
  | store (slot : ℕ) (scope : StoreScope)
deriving DecidableEq, Repr

/-- The command, its fields still empty. -/
def BoundCommand.command : BoundCommand → Command
  | .wait _ => .wait 0 0
  | .memoryBarrier => .memoryBarrier
  | .execute operation => .execute operation
  | .store _ scope => .store 0 0 scope

/-- The patches of a command at position `k`. -/
def BoundCommand.patches (k : ℕ) : BoundCommand → List CommandPatch
  | .wait slot => [⟨k, .waitAddress, .timelineSignal slot⟩, ⟨k, .waitValue, .timelineValue slot⟩]
  | .memoryBarrier => []
  | .execute _ => []
  | .store slot _ => [⟨k, .storeDst, .timelineSignal slot⟩, ⟨k, .storeValue, .timelineValue slot⟩]

/-- The submission of these commands, each with its patches. -/
def boundSubmission (queue : QueueKind) (cs : List BoundCommand) : Submission where
  queue := queue
  commands := cs.map BoundCommand.command
  patches := cs.zipIdx.flatMap fun e => e.1.patches e.2

/-- A lane entry: the first of its lane waits for the device, each waits for its producers, and a
    queue that has waited drops what its caches hold. -/
def entryCommands (first : Bool) (slots : List ℕ) (operation slot : ℕ) (scope : StoreScope) :
    List BoundCommand :=
  (if first then [.memoryBarrier, .wait 0] else []) ++ slots.map .wait ++
    (if slots.isEmpty then [] else [.memoryBarrier]) ++ [.execute operation, .store slot scope]

/-- The finalizer waits for the slots and stores its own. -/
def finalizerCommands (first : Bool) (slots : List ℕ) (slot : ℕ) : List BoundCommand :=
  (if first then [.memoryBarrier, .wait 0] else []) ++ slots.map .wait ++ [.store slot .system]

/-- Entry `p` publishes what `w` waits for, and no later one does. -/
def Produces (lanes : List LaneSubmission) (p : ℕ) (w : LaneWait) : Prop :=
  (∃ e, lanes[p]? = some e ∧ e.lane = w.lane ∧ e.signalValue = w.value) ∧
    ∀ q e, p < q → lanes[q]? = some e → ¬ (e.lane = w.lane ∧ e.signalValue = w.value)

/-- Entry `p` is the last one of `lane`. -/
def IsLatest (lanes : List LaneSubmission) (p : ℕ) (lane : DeviceQueue) : Prop :=
  (∃ e, lanes[p]? = some e ∧ e.lane = lane) ∧
    ∀ q e, p < q → lanes[q]? = some e → e.lane ≠ lane

/-- Some wait of the submissions is bound to the slot. -/
def Observed (subs : List SemanticLinkedSubmission) (slot : ℕ) : Prop :=
  ∃ s ∈ subs, ∃ k, ⟨k, .waitAddress, .timelineSignal slot⟩ ∈ s.submission.patches

/-- The queues of the entries, and of the finalizer behind them. -/
def queuesOf (lanes : List LaneSubmission) (finalLane : DeviceQueue) : List DeviceQueue :=
  lanes.map LaneSubmission.lane ++ [finalLane]

/-- Slots that share a signal word belong to one queue, which raises it, and every point lies
    above what its word holds before the plan runs. -/
structure PerLaneTimelines (queues : List DeviceQueue) (points : ℕ → TimelinePoint)
    (mem : ℕ → ℕ) : Prop where
  ordered : ∀ {i j : ℕ} {a b : DeviceQueue}, i < j → queues[i]? = some a → queues[j]? = some b →
    (points (i + 1)).signalAddress = (points (j + 1)).signalAddress →
      a = b ∧ (points (i + 1)).value < (points (j + 1)).value
  fresh : ∀ i < queues.length, mem (points (i + 1)).signalAddress < (points (i + 1)).value

open Svod.Lib.SignalQueues in
/-- In every run of the submissions, once the last one is complete all of them are. -/
def FinalizerCompletes (queues : List DeviceQueue) (subs : List SemanticLinkedSubmission) : Prop :=
  ∀ (points : ℕ → TimelinePoint) (mem : ℕ → ℕ), PerLaneTimelines queues points mem →
    ∃ batches, subs.mapM (SemanticLinkedSubmission.replay points) = .ok batches ∧
      ∀ σ, Reachable batches mem σ → Done batches σ (subs.length - 1) →
        ∀ i < subs.length, Done batches σ i

/-- The submissions of a plan: one for each entry, then a finalizer that completes last. -/
structure NativeMeets (lanes : List LaneSubmission) (finalLane : DeviceQueue)
    (subs : List SemanticLinkedSubmission) : Prop where
  count : subs.length = lanes.length + 1
  entries : ∀ (i : ℕ) (entry : LaneSubmission), lanes[i]? = some entry →
    ∃ operation leg slots scope, entry.commands = [{ operation, copyLeg := leg }] ∧
      subs[i]? = some ⟨entry.lane, boundSubmission entry.lane.queue
        (entryCommands (decide (entry.lane ∉ (lanes.take i).map LaneSubmission.lane)) slots
          operation (i + 1) scope)⟩ ∧
      List.Forall₂ (fun w slot => ∃ p, slot = p + 1 ∧ Produces lanes p w) entry.waits slots ∧
      (scope = .system ↔ Observed subs (i + 1))
  finalizer : ∃ slots, subs[lanes.length]? = some ⟨finalLane, boundSubmission finalLane.queue
      (finalizerCommands (decide (finalLane ∉ lanes.map LaneSubmission.lane)) slots
        (lanes.length + 1))⟩ ∧
    ∀ slot, slot ∈ slots ↔ ∃ p lane, slot = p + 1 ∧ lane ≠ finalLane ∧ IsLatest lanes p lane
  completes : FinalizerCompletes (queuesOf lanes finalLane) subs

end Svod.Device.Native
