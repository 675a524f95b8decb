/-
  Svod.Rangeify.SplitReduce

  Splitting a large REDUCE into two stages (`split_reduceop` of
  `schedule/src/rangeify/kernel.rs`).

  All shapes are constant.  Which axes are expanded and whether the REDUCE selects
  from a one-hot mask are parameters: they decide only whether and where to split.
  `checks` says whether the host build checks `usize` arithmetic.
-/

import Svod.Symbolic.ReduceFactor
import Svod.Tensor.Reduce

namespace Svod.Rangeify.SplitReduce

open Svod.Lib Svod.Ir Svod.Tensor.Nd
open Svod.Symbolic.ReduceFactor (ReduceOp)

/-! ## Data -/

structure SplitReduceOpConfig where
  splitThreshold : ℕ
  outputSizeBits : ℕ
  maxDivisor : ℕ
  minDivisor : ℕ
  enabled : Bool
deriving DecidableEq, Repr

/-- A REDUCE of the leading axes of `src`; `ranges` are its loop ranges. -/
structure Reduce (α : Type) where
  src : NdArray α
  ranges : List ℕ
  numAxes : ℕ

structure SplitCandidate where
  dimension : ℕ
  divisor : ℕ
  outputSize : ℕ
deriving DecidableEq, Repr

inductive Panic where
  | overflow
  | divisionByZero
deriving DecidableEq, Repr

section

variable {τ : IntType}

/-- The operation of a reduction. -/
def combine : ReduceOp → TypedInt τ → TypedInt τ → TypedInt τ
  | .add, a, b => a + b
  | .mul, a, b => a * b
  | .max, a, b => max a b
  | .min, a, b => min a b

/-- The value that a reduction starts from. -/
def identity : ReduceOp → TypedInt τ
  | .add => 0
  | .mul => 1
  | .max => .least
  | .min => .greatest

end

/-! ## Machine sizes -/

section

variable (checks : Bool)

/-- A `usize` that may have overflowed. -/
def usize (n : ℕ) : Except Panic ℕ :=
  if n < 2 ^ 64 then .ok n else if checks then .error .overflow else .ok (n % 2 ^ 64)

/-- `product`. -/
def product (sizes : List ℕ) : Except Panic ℕ := sizes.foldlM (fun acc n => usize checks (acc * n)) 1

/-- `max_output_size`. -/
def SplitReduceOpConfig.maxOutputSize (config : SplitReduceOpConfig) : Except Panic ℕ :=
  usize checks (2 ^ config.outputSizeBits)

/-! ## The split -/

variable {α : Type} (op : α → α → α) (e : α)

/-- `reduce.shape()`. -/
def Reduce.shape (reduce : Reduce α) : Option (List ℕ) :=
  if reduce.numAxes ≤ reduce.src.shape.length then some (reduce.src.shape.drop reduce.numAxes)
  else none

/-- One divisor of one axis. -/
def candidateStep (config : SplitReduceOpConfig) (outputSize axis dimSize : ℕ)
    (candidates : List SplitCandidate) (divisor : ℕ) : Except Panic (List SplitCandidate) := do
  if divisor = 0 then .error .divisionByZero
  else if dimSize % divisor ≠ 0 then .ok candidates
  else do
    let newOutputSize ← usize checks (outputSize * divisor)
    if newOutputSize > (← config.maxOutputSize checks) then .ok candidates
    else .ok (candidates ++ [⟨axis, divisor, newOutputSize⟩])

/-- `find_split_candidates`; the divisors are tried from the greatest on. -/
def findSplitCandidates (config : SplitReduceOpConfig) (reduce : Reduce α) (isExpanded : List Bool) :
    Except Panic (List SplitCandidate) :=
  match reduce.shape with
  | none => .ok []
  | some outputShape => do
    let outputSize ← product checks outputShape
    (List.range reduce.numAxes).foldlM (fun candidates axis =>
      if isExpanded.getD axis true then .ok candidates
      else (List.range' config.minDivisor (config.maxDivisor + 1 - config.minDivisor)).reverse.foldlM
        (candidateStep checks config outputSize axis (reduce.src.shape.getD axis 0)) candidates) []

/-- The shape with the axis split. -/
def splittedShape (shape : List ℕ) (dimToSplit divisor remainder : ℕ) : List ℕ :=
  shape.zipIdx.flatMap fun (dim, i) => if i = dimToSplit then [divisor, remainder] else [dim]

/-- `apply_split_transformation`; `contiguous` keeps the value. -/
def applySplitTransformation (reduce : Reduce α) (candidate : SplitCandidate) :
    Option (NdArray α) := do
  let dimToSplit := candidate.dimension
  let dimSize := reduce.src.shape.getD dimToSplit 0
  let remainder := dimSize / candidate.divisor
  let splitted := splittedShape reduce.src.shape dimToSplit candidate.divisor remainder
  let reshaped ← (Movement.tryReshape reduce.src splitted).toOption
  let permutation := (List.range splitted.length).filter (· ≠ dimToSplit) ++ [dimToSplit]
  let permuted ← (Movement.tryPermute reshaped permutation).toOption
  let firstReduce ← (tryReduceAxis op e permuted (List.range reduce.numAxes)).toOption
  let splitAxis := firstReduce.shape.length - 1
  let secondReduce ← (tryReduceAxis op e firstReduce [splitAxis]).toOption
  let finalShape ← reduce.shape
  (Movement.tryReshape secondReduce finalShape).toOption

/-- `split_reduceop`. -/
def splitReduceop (config : SplitReduceOpConfig) (isExpanded : List Bool) (isOneHotSelect : Bool)
    (reduce : Reduce α) : Except Panic (Option (NdArray α)) :=
  if ¬ config.enabled ∨ reduce.numAxes = 0 ∨ reduce.ranges ≠ [] then .ok none
  else
    match reduce.shape with
    | none => .ok none
    | some outputShape => do
      let inputSize ← product checks reduce.src.shape
      let outputSize ← product checks outputShape
      if outputSize = 0 then .ok none
      else if inputSize / outputSize < config.splitThreshold ∨ isOneHotSelect then .ok none
      else
        match ← findSplitCandidates checks config reduce isExpanded with
        | [] => .ok none
        | candidate :: _ => .ok (applySplitTransformation op e reduce candidate)

end

end Svod.Rangeify.SplitReduce
