/-
  Svod.Late.Expand

  Upcast and unroll ranges as shaped coordinates (`schedule/src/expand.rs`).

  Every such range has a position among the coordinates of a value; the operands
  of a tensor-core instruction take some of them as one flat axis at the end.  A
  node stands for the array that it denotes, of fewer than `2 ^ 63` elements.
-/

import Svod.Ir.Movement
import Svod.Lib.AxisOrder

namespace Svod.Late.Expand

open Svod.Lib Svod.Ir

variable {A : Type} [DecidableEq A] {α : Type}

/-- The position of an axis. -/
abbrev RangeMap (A : Type) := List (A × ℕ)

/-- `entry(axis_id).or_insert(len)`. -/
def RangeMap.insert (ranges : RangeMap A) (axisId : A) : RangeMap A :=
  if (ranges.lookup axisId).isSome then ranges else ranges ++ [(axisId, ranges.length)]

/-- `build_range_map`, of the axes of the upcast and unroll ranges in their order. -/
def buildRangeMap (axisIds : List A) : RangeMap A := axisIds.foldl RangeMap.insert []

/-- Move the selected coordinate dimensions to the tail and flatten them. -/
def contractAxis (ctx : RangeMap A) (source : NdArray α) (axes : List (A × ℕ)) :
    Option (NdArray α) :=
  if axes.isEmpty then some source
  else do
    let shape := source.shape
    let tail ← axes.mapM fun a => ctx.lookup a.1
    if tail.any (shape.length ≤ ·) then none
    if (axes.zip tail).any (fun p => shape.getD p.2 0 ≠ p.1.2) then none
    let head := (List.range shape.length).filter (· ∉ tail)
    let permuted ← (Movement.tryPermute source (head ++ tail)).toOption
    let permutedShape := permuted.shape
    let outputShape := permutedShape.take head.length ++ [(permutedShape.drop head.length).prod]
    (Movement.tryReshape permuted outputShape).toOption

/-- Restore flattened coordinate dimensions to their target coordinate order. -/
def unrollAxis (ctx : RangeMap A) (source : NdArray α) (axes : List (A × ℕ)) :
    Option (NdArray α) :=
  if axes.isEmpty then some source
  else do
    let last ← source.shape.getLast?
    let front := source.shape.dropLast
    let extent := (axes.map (·.2)).prod
    if last ≠ extent then none
    let tail ← axes.mapM fun a => ctx.lookup a.1
    let expandedShape := front ++ axes.map (·.2)
    let expanded ← (Movement.tryReshape source expandedShape).toOption
    let head := (List.range expandedShape.length).filter (· ∉ tail)
    let order := head ++ tail
    if order.length ≠ expandedShape.length ∨ order.any (order.length ≤ ·) then none
    (Movement.tryPermute expanded (invert order)).toOption

/-! ## Tests -/

example : (contractAxis (buildRangeMap ["a", "b", "a"]) ⟨[2, 3], fun c => c⟩ [("a", 2)]).map
    (fun t => (t.shape, (coords t.shape).map t.get)) =
      some ([3, 2], [[0, 0], [1, 0], [0, 1], [1, 1], [0, 2], [1, 2]]) := by decide

end Svod.Late.Expand
