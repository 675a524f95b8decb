/-
  Svod.Symbolic.InvalidGate

  Propagation of the `Invalid` marker (`propagate_invalid` of
  `symbolic/patterns.rs`).

  `Where(cond, x, Invalid)` is a gate: `x` is only there under `cond`.  The
  rules move gates outwards.  Here a node has a value or is poison.  The marker
  is poison, every operation is strict in it, a selection ignores the branch it
  does not take, and a reduction is poison when one of its contributions is.

  What the operations compute is left open, apart from the logical operations on
  booleans, which the rules use to combine gates.
-/

import Svod.DType
import Svod.Lib.LoopNest

namespace Svod.Symbolic.InvalidGate

open Svod Svod.Lib

/-! ## Nodes -/

inductive UnaryOp where
  | neg | not | abs | sqrt | rsqrt | exp | exp2 | log | log2 | sin | cos | tan | reciprocal
  | trunc | floor | ceil | round | sign | erf | square
deriving DecidableEq, Repr

inductive BinaryOp where
  | add | mul | sub | floorMod | cmod | max | pow | floorDiv | cdiv | fdiv
  | lt | le | eq | ne | gt | ge
  | and | or | xor | shl | shr | threefry
deriving DecidableEq, Repr

inductive ReduceOp where
  | add | mul | max | min
deriving DecidableEq, Repr

def BinaryOp.isComparison : BinaryOp → Bool
  | .lt | .le | .eq | .ne | .gt | .ge => true
  | _ => false

/-- `leaf` is a node the rules do not look into, with the ids of the ranges in its subtree;
    `invalid` is any node that `is_invalid_marker` accepts; a RANGE is a loop. -/
inductive Expr where
  | leaf (id : ℕ) (reads : List ℕ) (dtype : ScalarDType)
  | invalid
  | unary (op : UnaryOp) (x : Expr)
  | cast (src : Expr) (dtype : ScalarDType)
  | bitcast (src : Expr) (dtype : ScalarDType)
  | binary (op : BinaryOp) (a b : Expr)
  | where_ (cond a b : Expr)
  | reduce (op : ReduceOp) (src : Expr) (ranges : List Loop) (numAxes : ℕ)
deriving DecidableEq

/-- `promote` and `least_upper_float`. -/
structure Promotion where
  promote : ScalarDType → ScalarDType → ScalarDType
  leastUpperFloat : ScalarDType → ScalarDType

namespace Expr

def isInvalidMarker : Expr → Bool
  | invalid => true
  | _ => false

/-- `dtype_from_op`. -/
def dtype (p : Promotion) : Expr → ScalarDType
  | leaf _ _ d => d
  | invalid => .bool
  | unary op x =>
    match op with
    | .sqrt | .rsqrt | .exp | .exp2 | .log | .log2 | .sin | .cos | .tan | .reciprocal | .erf =>
      p.leastUpperFloat (x.dtype p)
    | _ => x.dtype p
  | cast _ d => d
  | bitcast _ d => d
  | binary op a b =>
    if op.isComparison then .bool
    else if op = .shl ∨ op = .shr then a.dtype p
    else p.promote (a.dtype p) (b.dtype p)
  | where_ _ a b =>
    if a.isInvalidMarker then b.dtype p
    else if b.isInvalidMarker then a.dtype p
    else p.promote (a.dtype p) (b.dtype p)
  | reduce _ src _ _ => src.dtype p

/-- The conditions of all selections are boolean, as `try_where` checks. -/
def WellTyped (p : Promotion) : Expr → Prop
  | leaf _ _ _ => True
  | invalid => True
  | unary _ x => x.WellTyped p
  | cast src _ => src.WellTyped p
  | bitcast src _ => src.WellTyped p
  | binary _ a b => a.WellTyped p ∧ b.WellTyped p
  | where_ c a b => c.dtype p = .bool ∧ c.WellTyped p ∧ a.WellTyped p ∧ b.WellTyped p
  | reduce _ src _ _ => src.WellTyped p

/-- Whether a node of one of the ids is in the subtree: `any_in_subtree`. -/
def anyInSubtree (ids : List ℕ) : Expr → Bool
  | leaf _ reads _ => reads.any (· ∈ ids)
  | invalid => false
  | unary _ x => x.anyInSubtree ids
  | cast src _ => src.anyInSubtree ids
  | bitcast src _ => src.anyInSubtree ids
  | binary _ a b => a.anyInSubtree ids || b.anyInSubtree ids
  | where_ c a b => c.anyInSubtree ids || a.anyInSubtree ids || b.anyInSubtree ids
  | reduce _ src ranges _ =>
    src.anyInSubtree ids || ranges.any fun r => r.id ∈ ids || r.reads.any (· ∈ ids)

/-- `moved_by_ranges`. -/
def movedByRanges (e : Expr) (ranges : List Loop) : Bool := e.anyInSubtree (ranges.map (·.id))

def not (c : Expr) : Expr := unary .not c

/-- `WHERE(cond, x, Invalid)`. -/
def gate (c x : Expr) : Expr := where_ c x invalid

end Expr

/-! ## Rules -/

inductive Rule where
  | whereInvalid | whereGatedCond | flip | mergeNested | liftTrueBranch | liftFalseBranch
  | unaryInvalid | unaryGated | castInvalid | castGated | bitcastInvalid | bitcastGated
  | reduceGated | binaryGatedLeft | binaryGatedRight | binaryInvalidLeft | binaryInvalidRight
deriving DecidableEq, Repr

/-- The operations that a bare marker poisons. -/
def BinaryOp.absorbsInvalid : BinaryOp → Bool
  | .add | .mul | .sub | .floorMod | .max | .floorDiv | .fdiv | .pow | .and | .or | .xor | .shl
  | .shr => true
  | _ => false

/-- The rules of `propagate_invalid`. -/
def Rule.apply : Rule → Expr → Option Expr
  | .whereInvalid, .where_ .invalid _ _ => some .invalid
  | .whereGatedCond, .where_ (.where_ cond x .invalid) a b =>
    some (.gate cond (.where_ x a b))
  | .flip, .where_ cond .invalid x =>
    if x.isInvalidMarker then some x
    else
      match cond with
      | .unary .not inner => some (.gate inner x)
      | _ => some (.gate cond.not x)
  | .mergeNested, .where_ c1 (.where_ c2 x d) d' =>
    if d = d' then some (.where_ (.binary .and c1 c2) x d) else none
  | .liftTrueBranch, .where_ a (.where_ cond x .invalid) c =>
    if c.isInvalidMarker then none
    else some (.gate (.binary .or a.not cond) (.where_ a x c))
  | .liftFalseBranch, .where_ a b (.where_ cond x .invalid) =>
    if b.isInvalidMarker then none
    else some (.gate (.binary .or a cond) (.where_ a b x))
  | .unaryInvalid, .unary _ .invalid => some .invalid
  | .unaryGated, .unary op (.where_ cond x .invalid) => some (.gate cond (.unary op x))
  | .castInvalid, .cast .invalid _ => some .invalid
  | .castGated, .cast (.where_ cond x .invalid) d => some (.gate cond (.cast x d))
  | .bitcastInvalid, .bitcast .invalid _ => some .invalid
  | .bitcastGated, .bitcast (.where_ cond x .invalid) d => some (.gate cond (.bitcast x d))
  | .reduceGated, .reduce op (.where_ cond x .invalid) ranges numAxes =>
    if numAxes = 0 ∧ !cond.movedByRanges ranges then
      some (.gate cond (.reduce op x ranges numAxes))
    else none
  | .binaryGatedLeft, .binary op (.where_ cond x .invalid) y =>
    some (.gate cond (.binary op x y))
  | .binaryGatedRight, .binary op y (.where_ cond x .invalid) =>
    some (.gate cond (.binary op y x))
  | .binaryInvalidLeft, .binary op .invalid _ => if op.absorbsInvalid then some .invalid else none
  | .binaryInvalidRight, .binary op _ .invalid => if op.absorbsInvalid then some .invalid else none
  | _, _ => none

/-! ## Values -/

/-- What the operations compute on values that are not poison. -/
structure Semantics (α : Type) where
  truth : α → Bool
  unary : UnaryOp → ScalarDType → α → α
  cast : ScalarDType → ScalarDType → α → α
  bitcast : ScalarDType → ScalarDType → α → α
  binary : BinaryOp → ScalarDType → ScalarDType → α → α → α
  reduce : ReduceOp → ScalarDType → List α → α
  truth_not : ∀ v, truth (unary .not .bool v) = !truth v
  truth_and : ∀ v w, truth (binary .and .bool .bool v w) = (truth v && truth w)
  truth_or : ∀ v w, truth (binary .or .bool .bool v w) = (truth v || truth w)

/-- An index into the shape of a node. -/
abbrev Lane := List ℕ

/-- The values of the leaves, at the values of the ranges in their subtree; the trip counts;
    the lanes of a source that its leading axes run over. -/
structure Env (α : Type) where
  leaf : ℕ → List ℕ → Lane → Option α
  trips : ℕ → List ℕ → ℕ
  lanes : ℕ → Expr → Lane → List Lane
  lanes_zero : ∀ e l, lanes 0 e l = [l]

/-- The value of a node, none where it is poison. -/
def Expr.eval {α : Type} (p : Promotion) (S : Semantics α) (E : Env α) :
    Expr → Counters → Lane → Option α
  | leaf id reads _, k, l => E.leaf id (reads.map k) l
  | invalid, _, _ => none
  | unary op x, k, l => (x.eval p S E k l).map (S.unary op (x.dtype p))
  | cast src d, k, l => (src.eval p S E k l).map (S.cast (src.dtype p) d)
  | bitcast src d, k, l => (src.eval p S E k l).map (S.bitcast (src.dtype p) d)
  | binary op a b, k, l => do
    let v ← a.eval p S E k l
    let w ← b.eval p S E k l
    some (S.binary op (a.dtype p) (b.dtype p) v w)
  | where_ c a b, k, l => do
    let v ← c.eval p S E k l
    if S.truth v then a.eval p S E k l else b.eval p S E k l
  | reduce op src ranges numAxes, k, l => do
    let vs ← (iterations E.trips ranges k).mapM fun k' =>
      (E.lanes numAxes src l).mapM fun l' => src.eval p S E k' l'
    some (S.reduce op (src.dtype p) vs.flatten)

end Svod.Symbolic.InvalidGate
