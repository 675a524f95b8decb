/-
  Svod.Rangeify.SplitRanges

  Splitting ranges at a constant modulus (`pm_split_ranges`,
  `do_split_ranges_substitute` and `flatten_range_impl` of
  `schedule/src/rangeify/transforms.rs`).

  A RANGE has a constant extent or a symbolic one, and no other dependencies; no
  END or REDUCE has a backedge.  A node that is no arithmetic on ranges and no
  reduction has an operation that is left open; a STORE is executed with the
  values of its sources.  The rules of `symbolic()` are a parameter.
-/

import Svod.Ir.Op
import Svod.Lib.IndexSpace
import Svod.Symbolic.ReduceFactor

namespace Svod.Rangeify.SplitRanges

open Svod.Lib Svod.Lib.IndexSpace
open Svod.Symbolic.ReduceFactor (ReduceOp)
open Svod.Ir.Graph (AxisType AxisId)

/-! ## Nodes -/

/-- The end of a range. -/
inductive Stop where
  | const (v : ℤ)
  | symbolic (id : ℕ)
deriving DecidableEq, Repr

structure Range where
  stop : Stop
  axisId : AxisId
  axisType : AxisType
deriving DecidableEq, Repr

mutual

inductive Expr where
  | const (v : ℤ)
  | range (r : Range)
  | add (a b : Expr)
  | mul (a b : Expr)
  | floorDiv (a b : Expr)
  | floorMod (a b : Expr)
  | node (id : ℕ) (srcs : Exprs)
  | reduce (op : ReduceOp) (dtype : IntType) (src : Expr) (ranges : Exprs)

inductive Exprs where
  | nil
  | cons (e : Expr) (es : Exprs)

end

/-- What a SINK holds: stores, groups, and ENDs of these.  The address of a STORE is an INDEX with
    `indices` into an image or another buffer; its other sources are `srcs`. -/
inductive Stmt where
  | noop
  | store (id : ℕ) (isImage : Bool) (indices srcs : Exprs)
  | group (first rest : Stmt)
  | end_ (computation : Stmt) (ranges : Exprs)

/-! ## Subgraphs -/

mutual

/-- The RANGE nodes of a subgraph, sources first. -/
def Expr.rangesOf : Expr → List Range
  | .const _ => []
  | .range r => [r]
  | .add a b => a.rangesOf ++ b.rangesOf
  | .mul a b => a.rangesOf ++ b.rangesOf
  | .floorDiv a b => a.rangesOf ++ b.rangesOf
  | .floorMod a b => a.rangesOf ++ b.rangesOf
  | .node _ srcs => srcs.rangesOf
  | .reduce _ _ src ranges => src.rangesOf ++ ranges.rangesOf

def Exprs.rangesOf : Exprs → List Range
  | .nil => []
  | .cons e es => e.rangesOf ++ es.rangesOf

end

def Stmt.rangesOf : Stmt → List Range
  | .noop => []
  | .store _ _ indices srcs => indices.rangesOf ++ srcs.rangesOf
  | .group s t => s.rangesOf ++ t.rangesOf
  | .end_ s ranges => s.rangesOf ++ ranges.rangesOf

/-- The ranges that range sources reach, each once, in the order of the toposort. -/
def Exprs.loops (ranges : Exprs) : List Range := ranges.rangesOf.eraseDups

/-! ## Marks -/

/-- What `pm_split_ranges` looks at: `RANGE % const`, and the address of an image STORE. -/
inductive Event where
  | mod (r : Range) (c : ℤ)
  | imageStore (ranges : List Range)

mutual

def Expr.events : Expr → List Event
  | .const _ => []
  | .range _ => []
  | .add a b => a.events ++ b.events
  | .mul a b => a.events ++ b.events
  | .floorDiv a b => a.events ++ b.events
  | .floorMod a b => a.events ++ b.events ++
      match a, b with
      | .range r, .const c => [.mod r c]
      | _, _ => []
  | .node _ srcs => srcs.events
  | .reduce _ _ src ranges => src.events ++ ranges.events

def Exprs.events : Exprs → List Event
  | .nil => []
  | .cons e es => e.events ++ es.events

end

def Stmt.events : Stmt → List Event
  | .noop => []
  | .store _ isImage indices srcs => indices.events ++ srcs.events ++
      if isImage then [.imageStore indices.rangesOf] else []
  | .group s t => s.events ++ t.events
  | .end_ s ranges => s.events ++ ranges.events

/-- `divides`, of an end. -/
def Stop.divides (stop : Stop) (v : ℤ) : Option Stop :=
  if v = 1 then some stop
  else if v = 0 then none
  else
    match stop with
    | .const val =>
      -- `i64::MIN % -1` is refused
      if val.tmod v = 0 ∧ val.tdiv v < 2 ^ 63 then some (.const (val.tdiv v)) else none
    | .symbolic _ => none

/-- `is_divisible_range_end`. -/
def isDivisibleRangeEnd (stop : Stop) (c : ℤ) : Bool :=
  match stop with
  | .const _ => (stop.divides c).isSome
  | .symbolic _ => false

/-- `marked_ranges`; the latest entry for a range is the one that counts. -/
abbrev Marks := List (Range × Option ℤ)

def Marks.get (marks : Marks) (r : Range) : Option (Option ℤ) := List.lookup r marks

/-- `mark_range_mod`. -/
def markRangeMod (marks : Marks) (r : Range) (c : ℤ) : Marks :=
  if (marks.get r).isSome then marks
  else if r.axisType = .warp ∨ r.axisType = .device then marks
  else if isDivisibleRangeEnd r.stop c then (r, some c) :: marks
  else marks

/-- `dont_split_ranges_for_image`. -/
def dontSplitRangesForImage (marks : Marks) (ranges : List Range) : Marks :=
  ranges.foldl (fun marks r => (r, none) :: marks) marks

/-- What is recorded of a node. -/
def record (marks : Marks) : Event → Marks
  | .mod r c => markRangeMod marks r c
  | .imageStore ranges => dontSplitRangesForImage marks ranges

/-! ## Rewriting -/

section

variable (subs : Range → Option Expr)

mutual

/-- `substitute_pm`. -/
def Expr.substitute : Expr → Expr
  | .const v => .const v
  | .range r => (subs r).getD (.range r)
  | .add a b => .add a.substitute b.substitute
  | .mul a b => .mul a.substitute b.substitute
  | .floorDiv a b => .floorDiv a.substitute b.substitute
  | .floorMod a b => .floorMod a.substitute b.substitute
  | .node id srcs => .node id srcs.substitute
  | .reduce op t src ranges => .reduce op t src.substitute ranges.substitute

def Exprs.substitute : Exprs → Exprs
  | .nil => .nil
  | .cons e es => .cons e.substitute es.substitute

end

def Stmt.substitute : Stmt → Stmt
  | .noop => .noop
  | .store id isImage indices srcs =>
    .store id isImage (indices.substitute subs) (srcs.substitute subs)
  | .group s t => .group s.substitute t.substitute
  | .end_ s ranges => .end_ s.substitute (ranges.substitute subs)

end

def Exprs.ofRanges : List Range → Exprs
  | [] => .nil
  | r :: rs => .cons (.range r) (ofRanges rs)

mutual

/-- `pm_flatten_range`: the range sources of every reduction become the ranges they reach. -/
def Expr.flattenRange : Expr → Expr
  | .const v => .const v
  | .range r => .range r
  | .add a b => .add a.flattenRange b.flattenRange
  | .mul a b => .mul a.flattenRange b.flattenRange
  | .floorDiv a b => .floorDiv a.flattenRange b.flattenRange
  | .floorMod a b => .floorMod a.flattenRange b.flattenRange
  | .node id srcs => .node id srcs.flattenRange
  | .reduce op t src ranges => .reduce op t src.flattenRange (.ofRanges ranges.loops)

def Exprs.flattenRange : Exprs → Exprs
  | .nil => .nil
  | .cons e es => .cons e.flattenRange es.flattenRange

end

def Stmt.flattenRange : Stmt → Stmt
  | .noop => .noop
  | .store id isImage indices srcs => .store id isImage indices.flattenRange srcs.flattenRange
  | .group s t => .group s.flattenRange t.flattenRange
  | .end_ s ranges => .end_ s.flattenRange (.ofRanges ranges.loops)

/-! ## Splitting -/

/-- `AxisId::child`. -/
def child (axisId : AxisId) (component : ℕ) : AxisId :=
  { axisId with path := axisId.path ++ [component] }

/-- The two ranges of a split, and its modulus. -/
structure Split where
  outer : Range
  inner : Range
  modVal : ℤ
deriving DecidableEq, Repr

/-- `r_outer * mod_val + r_inner`. -/
def Split.combined (s : Split) : Expr :=
  .add (.mul (.range s.outer) (.const s.modVal)) (.range s.inner)

/-- The split of a RANGE of the sink. -/
def splitOf (marks : Marks) (sink : Stmt) (r : Range) : Option Split :=
  match marks.get r with
  | some (some modVal) =>
    if r ∈ sink.rangesOf then
      match r.stop.divides modVal with
      | some outerEnd => some
          { outer := ⟨outerEnd, child r.axisId 0, r.axisType⟩
            inner := ⟨.const modVal, child r.axisId 1, r.axisType⟩
            modVal }
      | none => none
    else none
  | _ => none

/-- The sink with the marked ranges split, before it is simplified. -/
def splitSink (marks : Marks) (sink : Stmt) : Stmt :=
  sink.substitute fun r => (splitOf marks sink r).map Split.combined

/-- `do_split_ranges_substitute`; the rules `sym` simplify the result. -/
def doSplitRangesSubstitute (sym : Stmt → Stmt) (marks : Marks) (sink : Stmt) : Option Stmt :=
  if sink.rangesOf.all fun r => (splitOf marks sink r).isNone then none
  else some (sym (splitSink marks sink))

/-- A sink in the course of the rewriting, and `SplitRangesContext`. -/
structure State where
  sink : Stmt
  marks : Marks

/-- What the matcher of `pm_split_ranges` and `pm_flatten_range` does: look at a node, flatten the
    range sources, or split.  Sources come first, so that a sink that is split is flat by then; the
    context outlives the nodes that were looked at, and is cleared by a split. -/
inductive Step (sym : Stmt → Stmt) : State → State → Prop where
  | visit (s : State) {event : Event} (hevent : event ∈ s.sink.events) :
      Step sym s { s with marks := record s.marks event }
  | flatten (s : State) : Step sym s { s with sink := s.sink.flattenRange }
  | split (s : State) (hflat : s.sink.flattenRange = s.sink) {result : Stmt}
      (h : doSplitRangesSubstitute sym s.marks s.sink = some result) : Step sym s ⟨result, []⟩

/-- RANGE with vmax < 0 → Const(0), of `dead_loop_patterns`. -/
def deadLoops (sink : Stmt) : Stmt :=
  sink.substitute fun r =>
    match r.stop with
    | .const v => if v ≤ 0 then some (.const 0) else none
    | .symbolic _ => none

/-! ## Meaning -/

/-- The extents of symbolic ends, the operations of the nodes. -/
structure Env where
  symbolic : ℕ → ℕ
  node : ℕ → List ℤ → ℤ

def Stop.eval (E : Env) : Stop → ℕ
  | .const v => v.toNat
  | .symbolic id => E.symbolic id

/-- The number of iterations of a range. -/
def Range.trips (E : Env) (r : Range) : ℕ := r.stop.eval E

section

variable (E : Env)

mutual

/-- The value of a node at the indices of the ranges. -/
def Expr.eval : Expr → Point Range → ℤ
  | .const v, _ => v
  | .range r, σ => σ r
  | .add a b, σ => a.eval σ + b.eval σ
  | .mul a b, σ => a.eval σ * b.eval σ
  | .floorDiv a b, σ => (a.eval σ).fdiv (b.eval σ)
  | .floorMod a b, σ => (a.eval σ).fmod (b.eval σ)
  | .node id srcs, σ => E.node id (srcs.eval σ)
  | .reduce op t src ranges, σ =>
    op.fold t ((points (Range.trips E) ranges.loops σ).map fun σ' => src.eval σ')

def Exprs.eval : Exprs → Point Range → List ℤ
  | .nil, _ => []
  | .cons e es, σ => e.eval σ :: es.eval σ

end

/-- The stores that are executed, each with the values of its sources, as often as it is. -/
def Stmt.executed : Stmt → Point Range → Multiset (ℕ × List ℤ)
  | .noop, _ => 0
  | .store id _ indices srcs, σ => {(id, indices.eval E σ ++ srcs.eval E σ)}
  | .group s t, σ => s.executed σ + t.executed σ
  | .end_ s ranges, σ => ((points (Range.trips E) ranges.loops σ).map fun σ' => s.executed σ').sum

end

end Svod.Rangeify.SplitRanges
