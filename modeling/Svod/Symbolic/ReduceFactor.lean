/-
  Svod.Symbolic.ReduceFactor

  Factors moved out of a reduction (`reduce_sym_patterns` and
  `reduce_mul_chain_sym` of `symbolic/patterns.rs`), on integers.

  The body of the reduction is a product.  A node that is no product is a factor:
  the rules know its shape, its sound range and the ranges in its subtree, and
  its value depends on the counters of these ranges only.  A shape lists its
  dimensions from the innermost one outwards, and an axis is counted the same
  way, so the leading axes of a reduction are the last ones of its source.
-/

import Svod.Ir.RangeEvalTyped
import Svod.Lib.Broadcast
import Svod.Lib.LoopNest

namespace Svod.Symbolic.ReduceFactor

open Svod.Ir Svod.Lib

/-! ## Nodes -/

structure Factor where
  id : ℕ
  /-- The ids of the ranges in the subtree. -/
  reads : List ℕ
  shape : List ℕ
  range : Option RangeEval.Bounds
deriving DecidableEq

/-- A product.  `expanded` is a constant expanded to a shape. -/
inductive Body where
  | factor (f : Factor)
  | const (v : ℤ)
  | expanded (v : ℤ) (shape : List ℕ)
  | mul (a b : Body)
deriving DecidableEq

inductive ReduceOp where
  | add | mul | max | min
deriving DecidableEq, Repr

structure Reduce where
  src : Body
  ranges : List Loop
  reduceOp : ReduceOp
  numAxes : ℕ
deriving DecidableEq

namespace Body

def shape : Body → Extent
  | factor f => some f.shape
  | const _ => some []
  | expanded _ s => some s
  | mul a b => a.shape * b.shape

/-- Whether a node of one of the ids is in the subtree: `any_in_subtree`. -/
def anyInSubtree (ids : List ℕ) : Body → Bool
  | factor f => f.reads.any (· ∈ ids)
  | const _ => false
  | expanded _ _ => false
  | mul a b => a.anyInSubtree ids || b.anyInSubtree ids

/-- The sound range of a node that is no product. -/
def range (t : IntType) : Body → Option RangeEval.Bounds
  | factor f => f.range
  | const v => some (constOf t v, constOf t v)
  | expanded _ _ => none
  | mul _ _ => none

/-- `split_uop`, of products. -/
def splitUop : Body → List Body
  | mul a b => a.splitUop ++ b.splitUop
  | factor f => [factor f]
  | const v => [const v]
  | expanded v s => [expanded v s]

/-- `try_mul`: the shapes broadcast. -/
def tryMul (a b : Body) : Option Body :=
  match a.shape * b.shape with
  | some _ => some (mul a b)
  | none => none

end Body

/-- The shape of a reduction: the leading axes are gone. -/
def reduceShape (numAxes : ℕ) (src : Extent) : Extent :=
  match src with
  | some s => if numAxes ≤ s.length then some (s.take (s.length - numAxes)) else none
  | none => none

def Reduce.shape (r : Reduce) : Extent := reduceShape r.numAxes r.src.shape

/-- The product of a reduction and the factors moved out of it. -/
structure Factored where
  reduced : Reduce
  outside : Body
deriving DecidableEq

def Factored.shape (f : Factored) : Extent := f.reduced.shape * f.outside.shape

/-- `try_mul`, of a reduction and a product. -/
def Reduce.tryMul (r : Reduce) (b : Body) : Option Factored :=
  match r.shape * b.shape with
  | some _ => some ⟨r, b⟩
  | none => none

/-! ## Rules -/

/-- An `expect` on a product that is not built. -/
inductive Panic where
  | mulFailed
deriving DecidableEq, Repr

/-- `try_mul`, of which a result is expected. -/
def expectMul (a b : Body) : Except Panic Body :=
  match a.tryMul b with
  | some m => .ok m
  | none => .error .mulFailed

/-- The product of a list, from the left, none of an empty one. -/
def mulAll : List Body → Except Panic (Option Body)
  | [] => .ok none
  | b :: bs => do
    let p ← bs.foldlM expectMul b
    .ok (some p)

/-- Whether the range of a factor is known not to be negative. -/
def knownNonneg (t : IntType) (b : Body) : Bool :=
  match b.range t with
  | some (.int v, _) => 0 ≤ v
  | _ => false

/-- Whether a factor moves out. -/
def movesOut (t : IntType) (r : Reduce) (b : Body) : Bool :=
  !b.anyInSubtree (r.ranges.map (·.id)) && (r.reduceOp ≠ .max || knownNonneg t b)

/-- `reduce_mul_chain_sym`. -/
def reduceMulChainSym (t : IntType) (r : Reduce) : Except Panic (Option Factored) := do
  let factors := r.src.splitUop
  let outside := factors.filter (movesOut t r)
  let inside := factors.filter (!movesOut t r ·)
  match ← mulAll outside with
  | none => .ok none
  | some outsideProd =>
    let insideProd := match ← mulAll inside with
      | some p => p
      | none => .expanded 1 (r.src.shape.getD [])
    .ok (({ r with src := insideProd } : Reduce).tryMul outsideProd)

/-- The constant of a product, with the other operand. -/
def constOperands : Body → List (Body × ℤ)
  | .mul x (.const c) =>
    match x with
    | .const c' => [(x, c), (.const c, c')]
    | _ => [(x, c)]
  | .mul (.const c) x => [(x, c)]
  | _ => []

inductive Rule where
  | pullConst | mulChain
deriving DecidableEq, Repr

def Body.isMul : Body → Bool
  | .mul _ _ => true
  | _ => false

/-- What the rules of `reduce_sym_patterns` give, one outcome for each match. -/
def Rule.outcomes (t : IntType) : Rule → Reduce → List (Except Panic (Option Factored))
  | .pullConst, r =>
    if r.reduceOp = .add then
      (constOperands r.src).map fun (x, c) =>
        .ok (({ r with src := x } : Reduce).tryMul (.const c))
    else []
  | .mulChain, r =>
    if (r.reduceOp = .add ∨ r.reduceOp = .max) ∧ r.src.isMul then [reduceMulChainSym t r] else []

/-! ## Values -/

/-- An index into the axes of a shape. -/
abbrev Lane := ℕ → ℕ

/-- The values of the factors, at the counters of the ranges in their subtree and at an index
    into their shape; the trip counts of the ranges. -/
structure Env where
  factor : ℕ → List ℕ → List ℕ → ℤ
  trips : ℕ → List ℕ → ℕ

/-- The part of an index that a shape reads: a dimension of size `1` is broadcast. -/
def clip (shape : List ℕ) (lane : Lane) : List ℕ :=
  shape.mapIdx fun axis d => if d = 1 then 0 else lane axis

def Body.eval (t : IntType) (E : Env) : Body → Counters → Lane → ℤ
  | factor f, k, l => E.factor f.id (f.reads.map k) (clip f.shape l)
  | const v, _, _ => v
  | expanded v _, _, _ => v
  | mul a b, k, l => t.wrap (a.eval t E k l * b.eval t E k l)

/-- The lanes of a source that its leading axes run over. -/
def leadingLanes (numAxes : ℕ) (shape : List ℕ) (l : Lane) : List Lane :=
  iterations (fun axis _ => shape.getD axis 1)
    ((List.range' (shape.length - numAxes) numAxes).map fun axis => ⟨axis, []⟩) l

/-- The contributions to a reduction. -/
def Reduce.contributions (t : IntType) (E : Env) (r : Reduce) (k : Counters) (l : Lane) : List ℤ :=
  (iterations E.trips r.ranges k).flatMap fun k' =>
    (leadingLanes r.numAxes (r.src.shape.getD []) l).map fun l' => r.src.eval t E k' l'

/-- `identity_element`. -/
def ReduceOp.identity (t : IntType) : ReduceOp → ℤ
  | .add => 0
  | .mul => 1
  | .max => t.min
  | .min => t.max

def ReduceOp.step (t : IntType) : ReduceOp → ℤ → ℤ → ℤ
  | .add, acc, x => t.wrap (acc + x)
  | .mul, acc, x => t.wrap (acc * x)
  | .max, acc, x => Max.max acc x
  | .min, acc, x => Min.min acc x

def ReduceOp.fold (t : IntType) (op : ReduceOp) (xs : List ℤ) : ℤ :=
  xs.foldl (op.step t) (op.identity t)

def Reduce.eval (t : IntType) (E : Env) (r : Reduce) (k : Counters) (l : Lane) : ℤ :=
  r.reduceOp.fold t (r.contributions t E k l)

def Factored.eval (t : IntType) (E : Env) (f : Factored) (k : Counters) (l : Lane) : ℤ :=
  t.wrap (f.reduced.eval t E k l * f.outside.eval t E k l)

end Svod.Symbolic.ReduceFactor
