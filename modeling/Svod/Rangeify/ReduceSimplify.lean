/-
  Svod.Rangeify.ReduceSimplify

  Dropping ranges of a REDUCE and moving factors out of it (`pm_reduce_unparented`
  and `reduce_mul_chain` of `schedule/src/rangeify/patterns.rs`), on integers.

  The body is a product of factors as in `Svod.Symbolic.ReduceFactor`; the ranges
  that a factor reads are those in scope there (`in_scope_ranges`).  An entry of
  the list of ranges is a RANGE, whose extent the environment gives, or a CONST,
  which is a single point.  A REDUCE has the type of its source.
-/

import Svod.Symbolic.ReduceFactor

namespace Svod.Rangeify.ReduceSimplify

open Svod.Ir Svod.Lib
open Svod.Symbolic.ReduceFactor (Body ReduceOp Env Lane Panic mulAll)

/-! ## Nodes -/

inductive Entry where
  | range (id : ℕ)
  | const (v : ℤ)
deriving DecidableEq, Repr

structure Reduce where
  src : Body
  ranges : List Entry
  reduceOp : ReduceOp
  numAxes : ℕ
deriving DecidableEq

/-- What the rules build.  `extent` is the end of a range, cast to the type. -/
inductive Node where
  | body (b : Body)
  | reduce (r : Reduce)
  | extent (id : ℕ)
  | mul (a b : Node)
  | pow (a b : Node)
deriving DecidableEq

/-- The loop of a RANGE; a CONST has none. -/
def Entry.loop : Entry → Option Loop
  | range id => some ⟨id, []⟩
  | const _ => none

/-- `get_range_size`, by the range. -/
def Entry.size : Entry → Option ℕ
  | range id => some id
  | const _ => none

/-- The reduction over the loops of the ranges. -/
def Reduce.nest (r : Reduce) : Svod.Symbolic.ReduceFactor.Reduce :=
  ⟨r.src, r.ranges.filterMap Entry.loop, r.reduceOp, r.numAxes⟩

def Reduce.shape (r : Reduce) : Extent := r.nest.shape

def Node.shape : Node → Extent
  | body b => b.shape
  | reduce r => r.shape
  | extent _ => some []
  | mul a b => a.shape * b.shape
  | pow a b => a.shape * b.shape

/-! ## Values -/

def Reduce.eval (t : IntType) (E : Env) (r : Reduce) (k : Counters) (l : Lane) : ℤ :=
  r.nest.eval t E k l

/-- A power with a negative exponent has no value. -/
def Node.eval (t : IntType) (E : Env) : Node → Counters → Lane → Option ℤ
  | body b, k, l => some (b.eval t E k l)
  | reduce r, k, l => some (r.eval t E k l)
  | extent id, _, _ => some (t.wrap (E.trips id []))
  | mul a b, k, l => do
    let x ← a.eval t E k l
    let y ← b.eval t E k l
    some (t.wrap (x * y))
  | pow a b, k, l => do
    let x ← a.eval t E k l
    let y ← b.eval t E k l
    if 0 ≤ y then some (t.wrap (x ^ y.toNat)) else none

/-! ## Ranges that the body does not mention -/

/-- Whether the range is in scope in the body: `src_ranges.contains(&range.id)`. -/
def Reduce.parents (r : Reduce) : Entry → Bool
  | .range id => r.src.anyInSubtree [id]
  | .const _ => false

/-- `partition_reduce_ranges`. -/
def partitionReduceRanges (r : Reduce) : List Entry × List Entry :=
  (r.ranges.filter r.parents, r.ranges.filter (!r.parents ·))

/-- `try_mul`: the shapes broadcast. -/
def Node.tryMul (a b : Node) : Option Node :=
  match a.shape * b.shape with
  | some _ => some (mul a b)
  | none => none

/-- `try_pow`. -/
def Node.tryPow (a b : Node) : Option Node :=
  match a.shape * b.shape with
  | some _ => some (pow a b)
  | none => none

/-- `pm_reduce_unparented`. -/
def reduceUnparented (r : Reduce) : Option Node :=
  let (parented, unparented) := partitionReduceRanges r
  if unparented = [] then none
  else
    -- the types of the REDUCE and of its source never differ
    let result := if parented ≠ [] then Node.reduce { r with ranges := parented } else .body r.src
    let sizes := unparented.filterMap Entry.size
    match r.reduceOp with
    | .add => sizes.foldlM (fun acc id => acc.tryMul (.extent id)) result
    | .mul => sizes.foldlM (fun acc id => acc.tryPow (.extent id)) result
    | .max => some result
    | .min => none

/-! ## Factors that mention no range -/

/-- `references_any_reduce_range`. -/
def referencesAnyReduceRange (r : Reduce) (b : Body) : Bool :=
  b.anyInSubtree (r.nest.ranges.map (·.id))

/-- Whether the sound range of a factor starts at zero or above. -/
def isNonNegative (t : IntType) (b : Body) : Bool :=
  match b.range t with
  | some (.int v, _) => 0 ≤ v
  | some (.uint _, _) => true
  | some (.bool _, _) => true
  | _ => false

/-- Whether a factor goes outside. -/
def goesOutside (t : IntType) (r : Reduce) (b : Body) : Bool :=
  !referencesAnyReduceRange r b && (r.reduceOp ≠ .max || isNonNegative t b)

/-- `mul`, which expects the product to be built. -/
def Node.expectMul (a : Node) (b : Body) : Except Panic Node :=
  match a.tryMul (.body b) with
  | some m => .ok m
  | none => .error .mulFailed

/-- `reduce_mul_chain`. -/
def reduceMulChain (t : IntType) (r : Reduce) : Except Panic (Option Node) := do
  let factors := r.src.splitUop
  if factors.length < 2 then .ok none
  else
    let inside := factors.filter (!goesOutside t r ·)
    let outside := factors.filter (goesOutside t r)
    if outside = [] then .ok none
    else do
      let inner := match ← mulAll inside with
        | some p => p
        | none => .expanded 1 (r.src.shape.getD [])
      let result ← outside.foldlM Node.expectMul (.reduce { r with src := inner })
      .ok (some result)

/-! ## Rules -/

inductive Rule where
  | unparented | mulChain
deriving DecidableEq, Repr

/-- What a rule builds, `none` where it does not apply. -/
def Rule.outcome (t : IntType) : Rule → Reduce → Except Panic (Option Node)
  | .unparented, r => .ok (reduceUnparented r)
  | .mulChain, r =>
    if (r.reduceOp = .add ∨ r.reduceOp = .max) ∧ r.src.isMul then reduceMulChain t r else .ok none

end Svod.Rangeify.ReduceSimplify
