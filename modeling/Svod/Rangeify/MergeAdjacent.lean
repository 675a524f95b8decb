/-
  Svod.Rangeify.MergeAdjacent

  Merging pairs of ranges of an END or a REDUCE (`simplify_merge_adjacent` and
  `flatten_range_impl` of `schedule/src/rangeify/transforms.rs`).

  A RANGE has a constant extent or one that reads no range.  A node that is
  neither arithmetic on ranges nor a reduction has an operation that is left
  open; a STORE is executed with the values of its sources.  The rules of
  `symbolic()` are a parameter.
-/

import Svod.Ir.Op
import Svod.Lib.IndexSpace
import Svod.Symbolic.ReduceFactor

namespace Svod.Rangeify.MergeAdjacent

open Svod.Lib Svod.Lib.IndexSpace
open Svod.Symbolic.ReduceFactor (ReduceOp)
open Svod.Ir.Graph (AxisType)

deriving instance DecidableEq for IntType

/-! ## Nodes -/

/-- The end of a range. -/
inductive Stop where
  | const (v : ℤ)
  | symbolic (id : ℕ)
  | mul (a b : Stop)
deriving DecidableEq, Repr

structure Range where
  axis : ℕ
  axisType : AxisType
  stop : Stop
deriving DecidableEq, Repr

mutual

inductive Expr where
  | const (v : ℤ)
  | range (r : Range)
  | floorDiv (a b : Expr)
  | floorMod (a b : Expr)
  | node (id : ℕ) (srcs : Exprs)
  | reduce (op : ReduceOp) (dtype : IntType) (src : Expr) (ranges : Exprs)
deriving DecidableEq

inductive Exprs where
  | nil
  | cons (e : Expr) (es : Exprs)
deriving DecidableEq

end

/-- What an END closes: stores, groups of stores, and other ENDs. -/
inductive Stmt where
  | noop
  | store (id : ℕ) (srcs : Exprs)
  | group (first rest : Stmt)
  | end_ (computation : Stmt) (ranges : Exprs)
deriving DecidableEq

inductive Root where
  | value (e : Expr)
  | stmt (s : Stmt)
deriving DecidableEq

def Exprs.toList : Exprs → List Expr
  | .nil => []
  | .cons e es => e :: es.toList

/-! ## Subgraphs -/

mutual

/-- The RANGE nodes of a subgraph, sources first. -/
def Expr.rangesOf : Expr → List Range
  | .const _ => []
  | .range r => [r]
  | .floorDiv a b => a.rangesOf ++ b.rangesOf
  | .floorMod a b => a.rangesOf ++ b.rangesOf
  | .node _ srcs => srcs.rangesOf
  | .reduce _ _ src ranges => src.rangesOf ++ ranges.rangesOf

def Exprs.rangesOf : Exprs → List Range
  | .nil => []
  | .cons e es => e.rangesOf ++ es.rangesOf

end

/-- The ranges that range sources reach, each once, in the order of the toposort. -/
def Exprs.loops (ranges : Exprs) : List Range := ranges.rangesOf.eraseDups

mutual

/-- The divisions and remainders of a subgraph. -/
def Expr.divmods : Expr → List Expr
  | .const _ => []
  | .range _ => []
  | .floorDiv a b => a.divmods ++ b.divmods ++ [.floorDiv a b]
  | .floorMod a b => a.divmods ++ b.divmods ++ [.floorMod a b]
  | .node _ srcs => srcs.divmods
  | .reduce _ _ src ranges => src.divmods ++ ranges.divmods

def Exprs.divmods : Exprs → List Expr
  | .nil => []
  | .cons e es => e.divmods ++ es.divmods

end

mutual

/-- The range sources of the reductions of a subgraph. -/
def Expr.reduceRanges : Expr → List Exprs
  | .const _ => []
  | .range _ => []
  | .floorDiv a b => a.reduceRanges ++ b.reduceRanges
  | .floorMod a b => a.reduceRanges ++ b.reduceRanges
  | .node _ srcs => srcs.reduceRanges
  | .reduce _ _ src ranges => src.reduceRanges ++ ranges.reduceRanges ++ [ranges]

def Exprs.reduceRanges : Exprs → List Exprs
  | .nil => []
  | .cons e es => e.reduceRanges ++ es.reduceRanges

end

def Stmt.rangesOf : Stmt → List Range
  | .noop => []
  | .store _ srcs => srcs.rangesOf
  | .group s t => s.rangesOf ++ t.rangesOf
  | .end_ s ranges => s.rangesOf ++ ranges.rangesOf

def Stmt.divmods : Stmt → List Expr
  | .noop => []
  | .store _ srcs => srcs.divmods
  | .group s t => s.divmods ++ t.divmods
  | .end_ s ranges => s.divmods ++ ranges.divmods

def Stmt.reduceRanges : Stmt → List Exprs
  | .noop => []
  | .store _ srcs => srcs.reduceRanges
  | .group s t => s.reduceRanges ++ t.reduceRanges
  | .end_ s ranges => s.reduceRanges ++ ranges.reduceRanges

namespace Root

def rangesOf : Root → List Range
  | value e => e.rangesOf
  | stmt s => s.rangesOf

/-- `SliceMemo` of the REDUCE nodes: their range sources. -/
def reduceRanges : Root → List Exprs
  | value e => e.reduceRanges
  | stmt s => s.reduceRanges

def divmods : Root → List Expr
  | value e => e.divmods
  | stmt s => s.divmods

/-- `count_divmod`: nodes are interned, so equal ones count once. -/
def countDivmod (u : Root) : ℕ := u.divmods.eraseDups.length

end Root

/-! ## Rewriting -/

section

variable (map : Range → Option Expr)

mutual

/-- `substitute`, of ranges. -/
def Expr.substitute : Expr → Expr
  | .const v => .const v
  | .range r => (map r).getD (.range r)
  | .floorDiv a b => .floorDiv a.substitute b.substitute
  | .floorMod a b => .floorMod a.substitute b.substitute
  | .node id srcs => .node id srcs.substitute
  | .reduce op t src ranges => .reduce op t src.substitute ranges.substitute

def Exprs.substitute : Exprs → Exprs
  | .nil => .nil
  | .cons e es => .cons e.substitute es.substitute

end

def Stmt.substitute : Stmt → Stmt
  | .noop => .noop
  | .store id srcs => .store id (srcs.substitute map)
  | .group s t => .group s.substitute t.substitute
  | .end_ s ranges => .end_ s.substitute (ranges.substitute map)

def Root.substitute : Root → Root
  | .value e => .value (e.substitute map)
  | .stmt s => .stmt (s.substitute map)

end

def Exprs.ofRanges : List Range → Exprs
  | [] => .nil
  | r :: rs => .cons (.range r) (ofRanges rs)

mutual

/-- `pm_flatten_range`: the range sources of every reduction become the ranges they reach. -/
def Expr.flattenRange : Expr → Expr
  | .const v => .const v
  | .range r => .range r
  | .floorDiv a b => .floorDiv a.flattenRange b.flattenRange
  | .floorMod a b => .floorMod a.flattenRange b.flattenRange
  | .node id srcs => .node id srcs.flattenRange
  | .reduce op t src ranges => .reduce op t src.flattenRange (.ofRanges ranges.loops)

def Exprs.flattenRange : Exprs → Exprs
  | .nil => .nil
  | .cons e es => .cons e.flattenRange es.flattenRange

end

def Stmt.flattenRange : Stmt → Stmt
  | .noop => .noop
  | .store id srcs => .store id srcs.flattenRange
  | .group s t => .group s.flattenRange t.flattenRange
  | .end_ s ranges => .end_ s.flattenRange (.ofRanges ranges.loops)

def Root.flattenRange : Root → Root
  | .value e => .value e.flattenRange
  | .stmt s => .stmt s.flattenRange

/-! ## Merging -/

/-- The range over both: `r0` with the product of the ends. -/
def mergedRange (r0 r1 : Range) : Range := { r0 with stop := .mul r0.stop r1.stop }

/-- The substitution of a merge; a later entry of the map replaces an earlier one. -/
def mergeSubs (r0 r1 : Range) (s1 : ℤ) (r : Range) : Option Expr :=
  if r = r1 then some (.floorMod (.range (mergedRange r0 r1)) (.const s1))
  else if r = r0 then some (.floorDiv (.range (mergedRange r0 r1)) (.const s1))
  else none

/-- `MERGE_SYM`: the rules `sym` rewrite the node with flat ranges. -/
def mergeSym (sym : Root → Root) (u : Root) : Root := sym u.flattenRange

/-- The extents of a pair that may be merged: constant and positive, with a product in `i64`. -/
def mergeExtents (r0 r1 : Range) : Option (ℤ × ℤ) :=
  match r0.stop, r1.stop with
  | .const s0, .const s1 =>
    if s0 ≤ 0 ∨ s1 ≤ 0 ∨ 2 ^ 63 ≤ s0 * s1 then none else some (s0, s1)
  | _, _ => none

/-- Every reduction is over both ranges or over neither. -/
def sameReduceScope (reduces : List Exprs) (r0 r1 : Range) : Bool :=
  reduces.all fun rngs => decide (.range r0 ∈ rngs.toList) == decide (.range r1 ∈ rngs.toList)

/-- The checks on a pair that do not look at the node built so far. -/
def candidate (reduces : List Exprs) (endedRanges : List Expr) (pair : ℕ × ℕ) :
    Option (Range × Range × ℤ) :=
  match endedRanges[pair.1]?, endedRanges[pair.2]? with
  | some (.range r0), some (.range r1) =>
    if r0.axisType ≠ r1.axisType then none
    else if !sameReduceScope reduces r0 r1 then none
    else (mergeExtents r0 r1).map fun s => (r0, r1, s.2)
  | _, _ => none

/-- The node with the pair merged, simplified. -/
def simplified (sym : Root → Root) (current : Root) (r0 r1 : Range) (s1 : ℤ) : Root :=
  mergeSym sym (current.substitute (mergeSubs r0 r1 s1))

/-- The cost test. -/
def accepts (sym : Root → Root) (current : Root) (r0 r1 : Range) (s1 : ℤ) : Bool :=
  (simplified sym current r0 r1 s1).countDivmod ≤ current.countDivmod

/-- One pair of the loop, on `current` and `changed`. -/
def mergeStep (sym : Root → Root) (reduces : List Exprs) (endedRanges : List Expr)
    (st : Root × Bool) (pair : ℕ × ℕ) : Root × Bool :=
  match candidate reduces endedRanges pair with
  | some (r0, r1, s1) =>
    if accepts sym st.1 r0 r1 s1 then (simplified sym st.1 r0 r1 s1, true) else st
  | none => st

/-- The pairs tried: adjacent ones for an END, all ordered ones for a REDUCE. -/
def pairs (isEnd : Bool) (n : ℕ) : List (ℕ × ℕ) :=
  if isEnd then (List.range (n - 1)).map fun i => (i, i + 1)
  else (List.range n).flatMap fun i =>
    (List.range n).filterMap fun j => if i ≠ j then some (i, j) else none

def Root.isEnd : Root → Bool
  | .stmt (.end_ _ _) => true
  | _ => false

def Root.endedRanges : Root → Option (List Expr)
  | .stmt (.end_ _ ranges) => some ranges.toList
  | .value (.reduce _ _ _ ranges) => some ranges.toList
  | _ => none

/-- The extents of symbolic ends, the operations of the nodes. -/
structure Env where
  symbolic : ℕ → ℕ
  node : ℕ → List ℤ → ℤ

def Stop.eval (E : Env) : Stop → ℕ
  | .const v => v.toNat
  | .symbolic id => E.symbolic id
  | .mul a b => a.eval E * b.eval E

/-- The number of iterations of a range. -/
def Range.trips (E : Env) (r : Range) : ℕ := r.stop.eval E

section

variable (E : Env)

mutual

/-- The value of a node at the indices of the ranges. -/
def Expr.eval : Expr → Point Range → ℤ
  | .const v, _ => v
  | .range r, σ => σ r
  | .floorDiv a b, σ => (a.eval σ).fdiv (b.eval σ)
  | .floorMod a b, σ => (a.eval σ).fmod (b.eval σ)
  | .node id srcs, σ => E.node id (srcs.eval σ)
  | .reduce op t src ranges, σ =>
    op.fold t ((points (Range.trips E) ranges.loops σ).map fun σ' => src.eval σ')

def Exprs.eval : Exprs → Point Range → List ℤ
  | .nil, _ => []
  | .cons e es, σ => e.eval σ :: es.eval σ

end

/-- The stores that are executed, each with the values of its sources. -/
def Stmt.executed : Stmt → Point Range → Set (ℕ × List ℤ)
  | .noop, _ => ∅
  | .store id srcs, σ => {(id, srcs.eval E σ)}
  | .group s t, σ => s.executed σ ∪ t.executed σ
  | .end_ s ranges, σ =>
    {x | ∃ σ' ∈ points (Range.trips E) ranges.loops σ, x ∈ s.executed σ'}

end

/-- What a node computes and what it executes. -/
def Root.meaning (E : Env) : Root → Point Range → ℤ × Set (ℕ × List ℤ)
  | .value e, σ => (e.eval E σ, ∅)
  | .stmt s, σ => (0, s.executed E σ)

end Svod.Rangeify.MergeAdjacent
