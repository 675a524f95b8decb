/-
  Svod.Tensor.Singleflight

  In-flight computation dedup (`singleflight.rs`) as a system of calls.

  Every call of `run`, `try_claim` or `try_claim_miss` is an agent with its own
  program counter, so the calls of any number of threads, nested or not, are
  interleavings of agents.  A step is one critical section: a look-up of the
  cache, a claim on the table, a wait that finds its flag set, a store, and the
  two halves of `Ticket::drop`; `Threads` keeps the order in which a thread can
  run its calls.  Behind the cache stands the caller's contract: a
  computation that succeeds has stored its value, one that fails or panics has
  stored nothing, and nothing is evicted.
-/

import Svod.Lib.Runs
import Mathlib.Logic.Function.Basic
import Mathlib.Data.Nat.Notation

namespace Svod.Tensor.Singleflight

variable {C K V E : Type}

/-! ## State -/

/-- `Ticket`: the key and the slot of the claim. -/
structure Ticket (K : Type) where
  key : K
  slot : ℕ
deriving DecidableEq, Repr

inductive Op (K : Type) where
  | run (key : K)
  | tryClaim (key : K)
  | tryClaimMiss (key : K)
deriving DecidableEq, Repr

/-- How a computation ends. -/
inductive Computed (V E : Type) where
  | ok (v : V)
  | err (e : E)
  | panicked
deriving DecidableEq, Repr

/-- How a call ends: a claim is refused, or its ticket given up. -/
inductive Outcome (V E : Type) where
  | computed (r : Computed V E)
  | refused
  | released
deriving DecidableEq, Repr

inductive Pc (K V E : Type) where
  | idle
  /-- `run`, at the look-up of the loop's head. -/
  | lookup (key : K)
  /-- `run`, after a miss. -/
  | claim (key : K)
  /-- `run`, parked on the slot of another call's ticket. -/
  | wait (t : Ticket K)
  /-- `run`, at the look-up under its ticket. -/
  | recheck (t : Ticket K)
  | compute (t : Ticket K)
  /-- `try_claim`. -/
  | tryClaim (key : K)
  /-- `try_claim_miss`, at its first look-up. -/
  | missLookup (key : K)
  | missClaim (key : K)
  /-- `try_claim_miss`, at the look-up under its ticket. -/
  | missRecheck (t : Ticket K)
  /-- The caller holds the ticket; `missed` when the last look-up under it was a miss. -/
  | held (t : Ticket K) (missed : Bool)
  | heldCompute (t : Ticket K)
  /-- `Ticket::drop`, before the table's entry is removed. -/
  | drop (t : Ticket K) (o : Outcome V E)
  /-- `Ticket::drop`, before the flag is set. -/
  | notify (t : Ticket K) (o : Outcome V E)
  | finished (key : K) (o : Outcome V E)
deriving DecidableEq, Repr

/-- What a run of the system is judged by. -/
inductive Event (C K V E : Type) where
  | claimed (c : C) (t : Ticket K)
  | dropped (c : C) (t : Ticket K)
  | waits (c : C) (t : Ticket K)
  | wakes (c : C) (t : Ticket K)
  | starts (c : C) (key : K)
  | computed (c : C) (key : K) (r : Computed V E)
  | ended (c : C) (key : K) (o : Outcome V E)
deriving DecidableEq, Repr

structure State (C K V E : Type) where
  inflight : K → Option ℕ
  /-- The flag of every slot. -/
  done : ℕ → Bool
  /-- The slot the next claim makes. -/
  fresh : ℕ
  cache : K → Option V
  calls : C → Pc K V E
  /-- The events so far, the latest first. -/
  events : List (Event C K V E)

def State.new (cache : K → Option V) : State C K V E :=
  ⟨fun _ => none, fun _ => false, 0, cache, fun _ => .idle, []⟩

/-! ## Steps -/

inductive Action (K V E : Type) where
  | call (op : Op K)
  /-- The call's next statement. -/
  | next
  /-- The computation returns or unwinds. -/
  | finish (r : Computed V E)
  /-- The holder of a ticket looks up the cache. -/
  | look
  /-- The holder of a ticket computes, after a miss under it. -/
  | begin_
  /-- The holder of a ticket drops it. -/
  | release
deriving DecidableEq, Repr

/-! ## Tickets -/

/-- The ticket a call holds: until the table's entry is removed. -/
def Pc.ticket : Pc K V E → Option (Ticket K)
  | .recheck t | .compute t | .missRecheck t | .held t _ | .heldCompute t | .drop t _ => some t
  | _ => none

section

variable [DecidableEq C] [DecidableEq K]

def State.goto (s : State C K V E) (c : C) (pc : Pc K V E) : State C K V E :=
  { s with calls := Function.update s.calls c pc }

def State.emit (s : State C K V E) (e : Event C K V E) : State C K V E :=
  { s with events := e :: s.events }

/-- `claim`, on a vacant entry. -/
def State.insertSlot (s : State C K V E) (key : K) : State C K V E :=
  { s with inflight := Function.update s.inflight key (some s.fresh), fresh := s.fresh + 1 }

/-- `claim`: what the caller does with its ticket, or with the slot of another one. -/
def claim (s : State C K V E) (c : C) (key : K) (won : Ticket K → Pc K V E)
    (lost : ℕ → State C K V E) : State C K V E :=
  match s.inflight key with
  | some slot => lost slot
  | none =>
    let t := ⟨key, s.fresh⟩
    ((s.insertSlot key).goto c (won t)).emit (.claimed c t)

def finishCall (s : State C K V E) (c : C) (key : K) (o : Outcome V E) : State C K V E :=
  (s.goto c (.finished key o)).emit (.ended c key o)

/-- A computation stores its value before it returns. -/
def endCompute (s : State C K V E) (c : C) (key : K) (r : Computed V E) (pc : Pc K V E) :
    State C K V E :=
  let s := match r with
    | .ok v => { s with cache := Function.update s.cache key (some v) }
    | _ => s
  (s.goto c pc).emit (.computed c key r)

/-- A holder keeps its ticket after its computation, and drops it when unwound. -/
def afterCompute (t : Ticket K) : Computed V E → Pc K V E
  | .ok _ => .held t false
  | .err _ => .held t true
  | .panicked => .drop t .released

def step (s : State C K V E) (l : C × Action K V E) : Option (State C K V E) :=
  let c := l.1
  match s.calls c, l.2 with
  | .idle, .call (.run key) => some (s.goto c (.lookup key))
  | .idle, .call (.tryClaim key) => some (s.goto c (.tryClaim key))
  | .idle, .call (.tryClaimMiss key) => some (s.goto c (.missLookup key))
  | .lookup key, .next =>
    match s.cache key with
    | some hit => some (finishCall s c key (.computed (.ok hit)))
    | none => some (s.goto c (.claim key))
  | .claim key, .next =>
    some (claim s c key .recheck fun slot =>
      (s.goto c (.wait ⟨key, slot⟩)).emit (.waits c ⟨key, slot⟩))
  | .wait t, .next =>
    if s.done t.slot then some ((s.goto c (.lookup t.key)).emit (.wakes c t)) else none
  | .recheck t, .next =>
    match s.cache t.key with
    | some hit => some (s.goto c (.drop t (.computed (.ok hit))))
    | none => some ((s.goto c (.compute t)).emit (.starts c t.key))
  | .compute t, .finish r => some (endCompute s c t.key r (.drop t (.computed r)))
  | .tryClaim key, .next =>
    some (claim s c key (.held · false) fun _ => finishCall s c key .refused)
  | .missLookup key, .next =>
    match s.cache key with
    | some _ => some (finishCall s c key .refused)
    | none => some (s.goto c (.missClaim key))
  | .missClaim key, .next =>
    some (claim s c key .missRecheck fun _ => finishCall s c key .refused)
  | .missRecheck t, .next =>
    match s.cache t.key with
    | some _ => some (s.goto c (.drop t .refused))
    | none => some (s.goto c (.held t true))
  | .held t _, .look => some (s.goto c (.held t (s.cache t.key).isNone))
  | .held t true, .begin_ => some ((s.goto c (.heldCompute t)).emit (.starts c t.key))
  | .held t _, .release => some (s.goto c (.drop t .released))
  | .heldCompute t, .finish r =>
    some (endCompute s c t.key r (afterCompute t r))
  | .drop t o, .next =>
    some ({ s with inflight := Function.update s.inflight t.key none }.goto c (.notify t o))
  | .notify t o, .next =>
    let s := { s with done := Function.update s.done t.slot true }
    some (finishCall (s.emit (.dropped c t)) c t.key o)
  | _, _ => none

end

/-! ## Threads -/

/-- The caller runs: inside the call's computation, or after the call has returned. -/
def Pc.atCaller : Pc K V E → Bool
  | .compute _ | .held _ _ | .heldCompute _ | .finished _ _ => true
  | _ => false

/-- The call has returned, with a ticket for its caller or without one. -/
def Pc.returned : Pc K V E → Bool
  | .held _ _ | .finished _ _ => true
  | _ => false

/-- The calls of a stack that can go on: those inside them have returned. -/
def goingOn (returned : C → Bool) : List C → List C
  | [] => []
  | c :: outer => c :: if returned c then goingOn returned outer else []

/-- Every thread has a stack of the calls it has begun, the innermost first. -/
structure Threads (T C K V E : Type) where
  state : State C K V E
  stack : T → List C

def Threads.new {T : Type} (cache : K → Option V) : Threads T C K V E :=
  ⟨State.new cache, fun _ => []⟩

/-- A thread begins a call where a caller runs, and goes on with one on its stack. -/
def threadStep {T : Type} [DecidableEq T] [DecidableEq C] [DecidableEq K]
    (s : Threads T C K V E) (l : T × C × Action K V E) : Option (Threads T C K V E) :=
  let (thread, c, a) := l
  match a with
  | .call op =>
    if (s.stack thread).all fun c => (s.state.calls c).atCaller then
      (step s.state (c, .call op)).map fun state =>
        ⟨state, Function.update s.stack thread (c :: s.stack thread)⟩
    else none
  | a =>
    if c ∈ goingOn (fun c => (s.state.calls c).returned) (s.stack thread) then
      (step s.state (c, a)).map fun state => { s with state }
    else none

end Svod.Tensor.Singleflight
