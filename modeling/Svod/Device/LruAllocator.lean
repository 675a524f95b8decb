/-
  Svod.Device.LruAllocator

  The allocator that keeps freed buffers for reuse (`LruAllocator`), over an inner
  allocator that may fail at any call.

  A buffer is the number of the inner allocation it came from.  The inner
  allocator, the storage fence and the re-zeroing of a recycled buffer answer as
  the label of a step says.  Beside the pools the state keeps the books: who has
  which buffer, what it was made for, and what came back to the inner allocator.
-/

import Svod.Lib.Pools
import Svod.Lib.Runs

namespace Svod.Device.Lru

open Svod.Lib

/-! ## State -/

structure BufferSpec where
  uncached : Bool
  cpuAccess : Bool
  host : Bool
  nolru : Bool
deriving DecidableEq, Repr

/-- The whole key of a pool: the requested size and the specification. -/
abbrev Key := ℕ × BufferSpec

structure State where
  cache : Pools Key ℕ
  /-- The buffers the callers own, with what they asked for. -/
  owned : List (ℕ × Key)
  /-- The buffers the inner allocator got back, with what it was told. -/
  returned : List (ℕ × Key)
  /-- The number of the next inner allocation. -/
  fresh : ℕ
  /-- What every buffer was allocated for. -/
  madeFor : ℕ → Key
  /-- What every buffer was last freed with. -/
  freedWith : ℕ → Option Key
  /-- Whether a caller has freed the buffer under another key than it asked for. -/
  misfiled : ℕ → Bool
  /-- Whether the buffer's bytes are all zero. -/
  zeroed : ℕ → Bool

def State.new : State :=
  ⟨∅, [], [], 0, fun _ => (0, ⟨false, true, false, false⟩), fun _ => none, fun _ => false,
    fun _ => false⟩

/-- What the code under the pools answers in one `alloc`. -/
structure Answers (E : Type) where
  fence : Except E Unit
  /-- `zero_cached`. -/
  zero : Except E Bool
  /-- The first inner allocation: an error, or whether the bytes are zero. -/
  alloc : Except E Bool
  /-- The inner allocation after the pools are released. -/
  retry : Except E Bool

/-! ## Operations -/

section

variable {E : Type}

/-- `inner.free`. -/
def innerFree (s : State) (buffer : ℕ) (key : Key) : State :=
  { s with returned := (buffer, key) :: s.returned }

/-- `inner.alloc`. -/
def innerAlloc (s : State) (key : Key) : Except E Bool → State × Except E ℕ
  | .error e => (s, .error e)
  | .ok zeroed =>
    ({ s with
        fresh := s.fresh + 1
        madeFor := Function.update s.madeFor s.fresh key
        zeroed := Function.update s.zeroed s.fresh zeroed }, .ok s.fresh)

/-- `free_cache`. -/
def freeCache (s : State) : State :=
  { s with cache := ∅, returned := s.cache.entriesOf ++ s.returned }

/-- `zero_cached`: `.ok false` where the host cannot reach the memory. -/
def zeroCached (s : State) (buffer : ℕ) : Except E Bool → State × Except E Bool
  | .ok true => ({ s with zeroed := Function.update s.zeroed buffer true }, .ok true)
  | answer => (s, answer)

/-- `alloc`, of a buffer popped from its pool. -/
def allocCached (s : State) (buffer : ℕ) (key : Key) (zero : Bool) (answers : Answers E) :
    State × Except E ℕ :=
  match answers.fence with
  | .error e => (innerFree s buffer key, .error e)
  | .ok () =>
    if zero then
      match zeroCached s buffer answers.zero with
      | (s, .ok true) => (s, .ok buffer)
      | (s, .ok false) => innerAlloc (innerFree s buffer key) key answers.alloc
      | (s, .error e) => (innerFree s buffer key, .error e)
    else (s, .ok buffer)

/-- `alloc`, of a key without pooled buffers. -/
def allocMiss (s : State) (key : Key) (answers : Answers E) : State × Except E ℕ :=
  match innerAlloc s key answers.alloc with
  | (s, .ok buffer) => (s, .ok buffer)
  | (s, .error e) =>
    match innerAlloc (freeCache s) key answers.retry with
    | (s, .ok buffer) => (s, .ok buffer)
    | (s, .error _) => (s, .error e)

/-- `alloc`. -/
def alloc (s : State) (key : Key) (zero : Bool) (answers : Answers E) : State × Except E ℕ :=
  if key.2.nolru then innerAlloc s key answers.alloc
  else
    match s.cache.pop key with
    | some (buffer, cache) => allocCached { s with cache := cache } buffer key zero answers
    | none => allocMiss s key answers

/-- `free`. -/
def free (maxBuffersPerSize : ℕ) (s : State) (buffer : ℕ) (key : Key) : State :=
  if key.2.nolru then innerFree s buffer key
  else
    let (cache, overflow) := s.cache.pushIfRoom key buffer maxBuffersPerSize
    match overflow with
    | none => { s with cache := cache }
    | some buffer => innerFree { s with cache := cache } buffer key

end

/-! ## Steps -/

inductive Label (E : Type) where
  | alloc (key : Key) (zero : Bool) (answers : Answers E)
  /-- The owner frees the buffer, under a size and a specification. -/
  | free (buffer : ℕ) (key : Key)
  /-- The owner writes to the buffer. -/
  | write (buffer : ℕ)

/-- A caller gives up a buffer: what it asked for, if it owns it. -/
def disown (owned : List (ℕ × Key)) (buffer : ℕ) : Option (Key × List (ℕ × Key)) :=
  (owned.find? fun o => o.1 = buffer).map fun o => (o.2, owned.erase o)

def step {E : Type} (maxBuffersPerSize : ℕ) (s : State) : Label E → Option State
  | .alloc key zero answers =>
    match alloc s key zero answers with
    | (s, .ok buffer) => some { s with owned := (buffer, key) :: s.owned }
    | (s, .error _) => some s
  | .free buffer key =>
    match disown s.owned buffer with
    | none => none
    | some (asked, owned) =>
      let s := { s with
        owned := owned
        freedWith := Function.update s.freedWith buffer (some key)
        misfiled := Function.update s.misfiled buffer (s.misfiled buffer || key ≠ asked) }
      some (free maxBuffersPerSize s buffer key)
  | .write buffer =>
    match disown s.owned buffer with
    | none => none
    | some _ => some { s with zeroed := Function.update s.zeroed buffer false }

end Svod.Device.Lru
