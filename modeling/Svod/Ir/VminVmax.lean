/-
  Svod.Ir.VminVmax

  The best-effort interval analysis (`compute_vmin_vmax` in
  `ir/src/uop/range_eval.rs`, `VminVmaxProperty` in `ir/src/uop/properties.rs`).

  Where the sound analysis declines, this one falls back to the bounds of the
  dtype, so every expression has an interval.
-/

import Svod.Ir.RangeEvalSound

namespace Svod.Ir

open Svod.Lib

namespace RangeEval

/-- `analysis_bounds`. -/
def analysisBounds (d : DType) : Bounds := dtypeBounds d.base

/-- `sources_range_values`. -/
def sourcesRangeValues (values : List ConstValue) : Option Bounds :=
  match values with
  | [] => none
  | first :: rest => ifOrdered (rangeUnion first rest)

/-- `sources_range`, on the bounds of the sources. -/
def sourcesRange (sources : List Bounds) : Option Bounds :=
  match sources with
  | [] => none
  | first :: rest =>
    ifOrdered (rest.foldl (fun acc s => (minValue acc.1 s.1, maxValue acc.2 s.2)) first)

/-- `Op::Binary` in `compute_vmin_vmax`, on the bounds of the operands. -/
def binaryRange (op : BinaryOp) (a b : Bounds) (dtype : DType) : Option Bounds :=
  if a.1 = a.2 ∧ b.1 = b.2 then some (computeBinaryRange op a b dtype)
  else
    match op with
    | .and =>
      if dtype = .scalar .bool then some (computeBinaryRange op a b dtype)
      else
        match b with
        | (.int bmin, .int bmax) =>
          if dtype.isInt ∧ bmin = bmax ∧ bmin ≥ 0 then some (computeBinaryRange op a b dtype)
          else none
        | _ => none
    | .or => if dtype = .scalar .bool then some (computeBinaryRange op a b dtype) else none
    | .cdiv | .cmod => none
    | _ => some (computeBinaryRange op a b dtype)

/-- `Op::Ternary` with `WHERE` in `compute_vmin_vmax`, on the bounds of the operands. -/
def whereRange (cond t f : Bounds) (dtype : DType) : Option Bounds :=
  if cond.1 = cond.2 ∧ t.1 = t.2 ∧ f.1 = f.2 then some (computeWhereRange cond t f)
  else if dtype.isInt then some (computeWhereRange cond t f)
  else none

/-- `VminVmaxProperty`: `compute_vmin_vmax`, or the bounds of the dtype. -/
def vminVmax : UOp → Bounds
  | .const c _ => (c, c)
  | .vconst values d => (sourcesRangeValues values).getD (analysisBounds d)
  | .defineVar _ minVal maxVal d =>
    (normalizeDeclaredBounds (.int minVal) (.int maxVal) d).getD (analysisBounds d)
  | .param _ bounds addrspace d =>
    (if addrspace = none then do
      let (mn, mx) ← bounds
      normalizeDeclaredBounds mn mx d
    else none).getD (analysisBounds d)
  | .range stop _ d | .special stop _ d =>
    (zeroToTypedEndMinusOne (vminVmax stop).2 d).getD (analysisBounds d)
  | .bind var _ _ => vminVmax var
  | .stack n sources d =>
    (sourcesRange (List.ofFn fun i : Fin n => vminVmax (sources i))).getD (analysisBounds d)
  | .unary op src d => computeUnaryRange op (vminVmax src).1 (vminVmax src).2 d
  | .binary op a b d => (binaryRange op (vminVmax a) (vminVmax b) d).getD (analysisBounds d)
  | .where_ cond t f d =>
    (whereRange (vminVmax cond) (vminVmax t) (vminVmax f) d).getD (analysisBounds d)
  | .cast src d => (castRange (vminVmax src).1 (vminVmax src).2 d).getD (analysisBounds d)

end RangeEval

end Svod.Ir
