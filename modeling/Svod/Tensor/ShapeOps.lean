/-
  Svod.Tensor.ShapeOps

  The shape operations of the tensor layer (`tensor/src/shape_ops.rs`,
  `tensor/src/broadcast.rs`) on arrays of concrete shape.

  Each operation checks and normalizes its arguments and calls the constructor of
  the IR layer.  What it returns is stated against the array operation itself:
  the identity shortcuts return an array that agrees with it.

  Extents are unbounded here.  A reshape keeps the number of elements, so its words
  are those of its argument; `repeat`, which multiplies extents, checks them.
-/

import Svod.Ir.Movement
import Svod.Lib.NdCoords

namespace Svod.Tensor.Nd

open Svod.Lib Svod.Ir

variable {α : Type}

/-- The failures of the tensor layer. -/
inductive ErrorKind
  | uop (source : Ir.Error)
  | axisOutOfRange (axis : ℤ) (ndim : ℕ)
  | permutationLengthMismatch (expected got : ℕ)
  | invalidPermutation (axes : List ℤ)
  | multipleInferDimensions
  | negativeDimension (dim : ℤ)
  | reshapeSizeMismatch (operation : String)
  | squeezeDimensionNotOne (dim size : ℕ)
  | divisibility (op lhsName : String) (lhs : ℕ) (rhsName : String) (rhs : ℕ)
  | shapeMismatch (context expected actual : String)
  | broadcastFewerDimensions (fromDims toDims : ℕ)
  | broadcastIncompatible (dim fromSize toSize : ℕ)
  | irConstruction (details : String)
  | ndimMinimum (op : String) (min actual : ℕ)
  | shapeUnknown
  /-- A panic of the code. -/
  | panicked (message : String)
  deriving DecidableEq

/-- `context(UOpSnafu)`. -/
def uopContext {β : Type} : Except Ir.Error β → Except ErrorKind β
  | .ok b => .ok b
  | .error e => .error (.uop e)

/-- A requested extent: a size, or `-1`. -/
inductive Extent
  | const (n : ℕ)
  | infer
  deriving DecidableEq

namespace Extent

def isInfer : Extent → Bool
  | infer => true
  | const _ => false

def asConst : Extent → Option ℕ
  | const n => some n
  | infer => none

/-- The extent, with `inferred` for `-1`. -/
def resolve (inferred : ℕ) : Extent → ℕ
  | const n => n
  | infer => inferred

end Extent

/-! ## Reshape and expand -/

/-- `try_reshape`. -/
def tryReshape (t : NdArray α) (dims : List Extent) : Except ErrorKind (NdArray α) := do
  let inferCount := dims.countP Extent.isInfer
  ensure (inferCount ≤ 1) ErrorKind.multipleInferDimensions
  if inferCount = 1 then
    let totalElements := t.shape.prod
    let knownProduct := (dims.filterMap Extent.asConst).prod
    ensure (0 < knownProduct ∧ totalElements % knownProduct = 0)
      (ErrorKind.reshapeSizeMismatch "reshape with inference")
    uopContext (Movement.tryReshape t (dims.map (Extent.resolve (totalElements / knownProduct))))
  else
    uopContext (Movement.tryReshape t (dims.map (Extent.resolve 0)))

/-- One requested extent of `try_expand`: `-1` keeps the current one. -/
def keepExtent (currentShape : List ℕ) (x : Extent × ℕ) : Except ErrorKind ℕ :=
  match x.1 with
  | .const n => .ok n
  | .infer =>
    match currentShape[x.2]? with
    | some d => .ok d
    | none => .error (.axisOutOfRange x.2 currentShape.length)

/-- `try_expand`. -/
def tryExpand (t : NdArray α) (requested : List Extent) : Except ErrorKind (NdArray α) := do
  let shape ← requested.zipIdx.mapM (keepExtent t.shape)
  uopContext (Movement.tryExpand t shape)

/-! ## Axes -/

/-- `normalize_axis`. -/
def normalizeAxis (axis : ℤ) (ndim : ℕ) : Except ErrorKind ℕ := do
  if axis < 0 then
    ensure (-(ndim : ℤ) ≤ axis) (ErrorKind.axisOutOfRange axis ndim)
    return (ndim + axis).toNat
  else
    ensure (axis.toNat < ndim) (ErrorKind.axisOutOfRange axis ndim)
    return axis.toNat

/-- `normalize_axes`. -/
def normalizeAxes (axes : List ℤ) (ndim : ℕ) : Except ErrorKind (List ℕ) := do
  ensure (axes.length = ndim) (ErrorKind.permutationLengthMismatch ndim axes.length)
  let normalized ← axes.mapM (normalizeAxis · ndim)
  ensure normalized.Nodup (ErrorKind.invalidPermutation axes)
  return normalized

/-- `try_permute`. -/
def tryPermute (t : NdArray α) (axes : List ℤ) : Except ErrorKind (NdArray α) := do
  let normalizedAxes ← normalizeAxes axes t.shape.length
  uopContext (Movement.tryPermute t normalizedAxes)

/-- `try_transpose`. -/
def tryTranspose (t : NdArray α) (dim0 dim1 : ℤ) : Except ErrorKind (NdArray α) := do
  let d0 ← normalizeAxis dim0 t.shape.length
  let d1 ← normalizeAxis dim1 t.shape.length
  uopContext (Movement.tryPermute t (swapIdx (List.range t.shape.length) d0 d1))

/-- `try_squeeze`, of one dimension. -/
def trySqueeze (t : NdArray α) (axis : ℤ) : Except ErrorKind (NdArray α) := do
  let normalizedAxis ← normalizeAxis axis t.shape.length
  let dimSize := t.shape.getD normalizedAxis 0
  ensure (dimSize = 1) (ErrorKind.squeezeDimensionNotOne normalizedAxis dimSize)
  uopContext (Movement.tryReshape t (t.shape.eraseIdx normalizedAxis))

/-- `flatten`. -/
def flatten (t : NdArray α) : Except ErrorKind (NdArray α) := tryReshape t [.infer]

/-- `try_unsqueeze`. -/
def tryUnsqueeze (t : NdArray α) (dim : ℤ) : Except ErrorKind (NdArray α) := do
  let ndim := t.shape.length
  if dim < 0 then
    ensure (-(ndim + 1 : ℤ) ≤ dim) (ErrorKind.axisOutOfRange dim ndim)
    uopContext (Movement.tryReshape t (t.shape.insertIdx (ndim + 1 + dim).toNat 1))
  else
    ensure (dim.toNat ≤ ndim) (ErrorKind.axisOutOfRange dim ndim)
    uopContext (Movement.tryReshape t (t.shape.insertIdx dim.toNat 1))

/-! ## Repeat, pad and shrink -/

/-- One dimension of `repeat`: unsqueeze, expand and merge. -/
def repeatStep (result : NdArray α) (x : ℕ × ℕ) : Except ErrorKind (NdArray α) := do
  let (rep, dim) := x
  if rep = 1 then return result
  let currentShape := result.shape
  let dimSize := currentShape.getD dim 0
  let unsqueezed ← tryUnsqueeze result dim
  let expandShape := currentShape.insertIdx dim rep
  let expanded ← tryExpand unsqueezed (expandShape.map .const)
  let mergedShape := (expandShape.set dim (rep * dimSize)).eraseIdx (dim + 1)
  tryReshape expanded (mergedShape.map .const)

/-- A shape that can be read back: an extent is encoded as an `i64`, and `sint_prod` multiplies
    the extents as `usize`, from the first. -/
def Readable (shape : List ℕ) : Prop :=
  (∀ d ∈ shape, d < 2 ^ 63) ∧ ∀ s ∈ shape.inits, s.prod < 2 ^ 64

instance (shape : List ℕ) : Decidable (Readable shape) := inferInstanceAs (Decidable (_ ∧ _))

/-- `repeat`, and the caller's next look at the shape. -/
def repeatAxes (t : NdArray α) (repeats : List ℕ) : Except ErrorKind (NdArray α) := do
  ensure (repeats.length = t.shape.length)
    (ErrorKind.shapeMismatch "repeat" (toString t.shape.length ++ " dimensions")
      (toString repeats.length ++ " repeats"))
  let result ← repeats.zipIdx.foldlM repeatStep t
  -- a product that overflows is taken for a failure as well
  ensure (Readable result.shape) ErrorKind.shapeUnknown
  return result

/-- A range of `try_shrink`. -/
inductive ShrinkRange
  /-- Keep the entire dimension. -/
  | none
  /-- A range whose negative ends count from the end of the dimension. -/
  | isize (first last : ℤ)
  | sint (first last : ℕ)
  deriving DecidableEq

/-- One resolved range of `try_shrink`. -/
def resolveRange (dimSize : ℕ) : ShrinkRange → Except ErrorKind (ℕ × ℕ)
  | .none => .ok (0, dimSize)
  | .sint first last => .ok (first, last)
  | .isize first last => do
    let nb := if first < 0 then (dimSize : ℤ) + first else first
    let ne := if last < 0 then (dimSize : ℤ) + last else last
    ensure (0 ≤ nb) (ErrorKind.negativeDimension first)
    ensure (0 ≤ ne) (ErrorKind.negativeDimension last)
    return (nb.toNat, ne.toNat)

/-- `try_shrink`. -/
def tryShrink (t : NdArray α) (ranges : List ShrinkRange) : Except ErrorKind (NdArray α) := do
  if ranges = [] then return t
  if ranges.all (· = .none) then return t
  let rangesSint ← ranges.zipIdx.mapM fun x => resolveRange (t.shape.getD x.2 0) x.1
  uopContext (Movement.tryShrink t rangesSint)

/-- The slices of `split` from an offset on. -/
def splitFrom (t : NdArray α) (dim : ℕ) : ℕ → List ℕ → Except ErrorKind (List (NdArray α))
  | _, [] => .ok []
  | offset, size :: sizes => do
    let slice ← tryShrink t ((List.range t.shape.length).map fun d =>
      if d = dim then .isize offset (offset + size : ℕ) else .none)
    let rest ← splitFrom t dim (offset + size) sizes
    return slice :: rest

/-- `split`. -/
def split (t : NdArray α) (sizes : List ℕ) (dim : ℤ) : Except ErrorKind (List (NdArray α)) := do
  let dim ← normalizeAxis dim t.shape.length
  splitFrom t dim 0 sizes

/-- The first phase of `try_pad`: a negative padding crops. -/
def padBase (t : NdArray α) (padding : List (ℤ × ℤ)) : Except ErrorKind (NdArray α) :=
  if padding.any (fun p => p.1 < 0 ∨ p.2 < 0) then
    tryShrink t ((padding.zip t.shape).map fun x =>
      .isize (max (-x.1.1) 0) (min (x.2 + x.1.2) x.2))
  else .ok t

/-- `try_pad`. -/
def tryPad [Zero α] (t : NdArray α) (padding : List (ℤ × ℤ)) :
    Except ErrorKind (NdArray α) := do
  if padding = [] then return t
  ensure (padding.length = t.shape.length)
    (ErrorKind.shapeMismatch "pad" (toString t.shape.length ++ " dimensions")
      (toString padding.length ++ " padding pairs"))
  let base ← padBase t padding
  let posPadding := padding.map fun p => (max p.1 0, max p.2 0)
  if posPadding.all (fun p => p.1 = 0 ∧ p.2 = 0) then return base
  uopContext (Movement.tryPad base (posPadding.map fun p => (p.1.toNat, p.2.toNat)))

/-! ## Broadcasting -/

/-- `broadcast_to`. -/
def broadcastTo (t : NdArray α) (targetShape : List ℕ) : Except ErrorKind (NdArray α) := do
  if t.shape = targetShape then return t
  if targetShape.length < t.shape.length then
    throw (ErrorKind.broadcastFewerDimensions t.shape.length targetShape.length)
  let alignedShape :=
    if t.shape.length < targetShape.length then Movement.alignLeft targetShape.length t.shape
    else t.shape
  (alignedShape.zip targetShape).zipIdx.forM fun x =>
    ensure (x.1.1 = 1 ∨ x.1.1 = x.1.2) (ErrorKind.broadcastIncompatible x.2 x.1.1 x.1.2)
  let reshaped ←
    if alignedShape ≠ t.shape then uopContext (Movement.tryReshape t alignedShape) else pure t
  if alignedShape = targetShape then return reshaped
  uopContext (Movement.tryExpand reshaped targetShape)

/-- `broadcast_for_binop`. -/
def broadcastForBinop {β : Type} (a : NdArray α) (b : NdArray β) :
    Except ErrorKind (NdArray α × NdArray β) := do
  if a.shape = b.shape then return (a, b)
  let maxDims := max a.shape.length b.shape.length
  let resultShape ← uopContext (Movement.broadcastShape (Movement.alignLeft maxDims a.shape)
    (Movement.alignLeft maxDims b.shape))
  let selfBroadcast ← broadcastTo a resultShape
  let otherBroadcast ← broadcastTo b resultShape
  return (selfBroadcast, otherBroadcast)

/-- A binary operation of `impl_tensor_ops!`. -/
def tryBinary {β γ : Type} (op : α → β → γ) (a : NdArray α) (b : NdArray β) :
    Except ErrorKind (NdArray γ) := do
  let (lhs, rhs) ← broadcastForBinop a b
  return lhs.map₂ op rhs

/-- `try_add`. -/
def tryAdd [Add α] (a b : NdArray α) : Except ErrorKind (NdArray α) := tryBinary (· + ·) a b

/-- `try_mul`. -/
def tryMul [Mul α] (a b : NdArray α) : Except ErrorKind (NdArray α) := tryBinary (· * ·) a b

end Svod.Tensor.Nd
